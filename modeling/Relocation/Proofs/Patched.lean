import Mathlib.Algebra.Ring.Nat
import Mathlib.Data.List.Induction
import Mathlib.Data.List.Pairwise
import Relocation.Proofs.Text.Cuts
import Relocation.Splice

/-!
# What splicing gives

`Patched` says what it is for a text to be another one with new insides in some of its literals:
the two agree outside the insides, quotes included, and each inside is exchanged as a whole. The
splicer edits from the end of the text and may pass over a replacement. `Editing.made` lists the
replacements that it makes; with that list the result is patched, for any replacements whatever.
Replacements that are well placed (quoted ranges in the order of the text that do not overlap) are
all made.

## Results

* `splice_patched`: splicing patches the source with the replacements it makes;
* `Patched.unique`: there is one way only to patch a text;
* `Patched.split`: a patched text falls apart at each of its patches;
* `madeReplacements_of_ordered`: of ranges that follow one another, those are made that fit;
* `made_of_inOrder`: no well placed replacement is passed over.
-/

namespace Relocation

open Text

-- ---------------------------------------------------------------------------
-- Patched texts
-- ---------------------------------------------------------------------------

/-- The text from `offset` on, and the same text with the new insides of the replacements, which
stand in the order of the text. The quotes belong to what is kept. -/
inductive Patched : Nat → List Char → List Replacement → List Char → Prop where
  /-- Nothing is left to replace. -/
  | rest (offset : Nat) (text : List Char) : Patched offset text [] text
  /-- The text is kept up to the opening quote of a replacement, and its inside is exchanged. -/
  | patch {offset : Nat} {kept inside text result : List Char} {r : Replacement}
      {rs : List Replacement}
      (hStart : offset + byteLength kept = r.start + 1)
      (hStop : offset + byteLength kept + byteLength inside + 1 = r.stop)
      (hRest : Patched (offset + byteLength kept + byteLength inside) text rs result) :
      Patched offset (kept ++ inside ++ text) (r :: rs) (kept ++ r.updated.toList ++ result)

namespace Patched

variable {offset : Nat} {text result : List Char} {r : Replacement} {rs : List Replacement}

/-- Text in front of the first patch is kept. -/
theorem prepend (front : List Char) (h : Patched (offset + byteLength front) text rs result) :
    Patched offset (front ++ text) rs (front ++ result) := by
  cases h with
  | rest => exact .rest offset _
  | @patch _ kept inside text result r rs hStart hStop hRest =>
    have hLength : byteLength (front ++ kept) = byteLength front + byteLength kept :=
      byteLength_append front kept
    have hRest' : Patched (offset + byteLength (front ++ kept) + byteLength inside) text rs
        result := by
      rwa [hLength, ← Nat.add_assoc offset]
    have hPatch : Patched offset ((front ++ kept) ++ inside ++ text) (r :: rs)
        ((front ++ kept) ++ r.updated.toList ++ result) := .patch (by omega) (by omega) hRest'
    simpa only [List.append_assoc] using hPatch

/-- A patch at the very start of the text. -/
theorem here {inside : List Char} (hStart : offset = r.start + 1)
    (hStop : offset + byteLength inside + 1 = r.stop)
    (hRest : Patched (offset + byteLength inside) text rs result) :
    Patched offset (inside ++ text) (r :: rs) (r.updated.toList ++ result) := by
  have hPatch : Patched offset ([] ++ inside ++ text) (r :: rs)
      ([] ++ r.updated.toList ++ result) :=
    .patch (by simpa using hStart) (by simpa using hStop) (by simpa using hRest)
  simpa only [List.nil_append] using hPatch

/-- There is one way only to patch a text. -/
theorem unique {result' : List Char} (h : Patched offset text rs result)
    (h' : Patched offset text rs result') : result = result' := by
  induction h generalizing result' with
  | rest => cases h'; rfl
  | @patch offset kept inside text result r rs hStart hStop hRest ih =>
    generalize hText : kept ++ inside ++ text = whole at h'
    cases h' with
    | @patch _ kept' inside' text' result' _ _ hStart' hStop' hRest' =>
      rw [List.append_assoc, List.append_assoc] at hText
      obtain ⟨rfl, hBehind⟩ := append_inj_of_byteLength hText (by omega)
      obtain ⟨rfl, rfl⟩ := append_inj_of_byteLength hBehind (by omega)
      rw [ih hRest']

/-- A patched text falls apart at each of its patches: what lies in front of the opening quote is
patched by the replacements before it, and what lies behind the inside by those after it. -/
theorem split {before after : List Replacement}
    (h : Patched offset text (before ++ r :: after) result) :
    ∃ kept inside behind kept' behind',
      text = kept ++ inside ++ behind ∧ result = kept' ++ r.updated.toList ++ behind' ∧
      offset + byteLength kept = r.start + 1 ∧
      offset + byteLength kept + byteLength inside + 1 = r.stop ∧
      Patched offset kept before kept' ∧
      Patched (offset + byteLength kept + byteLength inside) behind after behind' := by
  induction before generalizing offset text result with
  | nil =>
    cases h with
    | @patch _ kept inside behind behind' _ _ hStart hStop hRest =>
      exact ⟨kept, inside, behind, kept, behind', rfl, rfl, hStart, hStop, .rest _ _, hRest⟩
  | cons r₀ before ih =>
    cases h with
    | @patch _ kept₀ inside₀ text₀ result₀ _ _ hStart₀ hStop₀ hRest₀ =>
      obtain ⟨kept, inside, behind, kept', behind', rfl, rfl, hStart, hStop, hKept, hBehind⟩ :=
        ih hRest₀
      have hLength : byteLength (kept₀ ++ inside₀ ++ kept)
          = byteLength kept₀ + byteLength inside₀ + byteLength kept := by
        simp only [byteLength_append]
      refine ⟨kept₀ ++ inside₀ ++ kept, inside, behind, kept₀ ++ r₀.updated.toList ++ kept',
        behind', by simp only [List.append_assoc], by simp only [List.append_assoc], by omega,
        by omega, .patch hStart₀ hStop₀ hKept, ?_⟩
      rw [hLength]
      simpa only [Nat.add_assoc] using hBehind

/-- The length changes by what the replacements put in and take out. -/
theorem byteLength_eq (h : Patched offset text rs result) :
    byteLength result + (rs.map fun r => r.stop - r.start - 2).sum
      = byteLength text + (rs.map fun r => byteLength r.updated.toList).sum := by
  induction h with
  | rest => simp
  | @patch offset kept inside text result r rs hStart hStop _ ih =>
    simp only [byteLength_append, List.map_cons, List.sum_cons]
    omega

/-- Text behind the last patch is kept. -/
theorem of_append {back : List Char} (h : Patched offset (text ++ back) rs result)
    (hBack : ∀ r ∈ rs, r.stop ≤ offset + byteLength text) :
    ∃ result', result = result' ++ back ∧ Patched offset text rs result' := by
  generalize hWhole : text ++ back = whole at h
  induction h generalizing text with
  | rest => exact ⟨text, hWhole.symm, .rest _ _⟩
  | @patch offset kept inside rest result r rs hStart hStop _ ih =>
    have hStopLe := hBack r List.mem_cons_self
    obtain ⟨more, rfl, rfl⟩ := eq_append_of_le hWhole.symm (by
      rw [byteLength_append]
      omega)
    obtain ⟨result', rfl, hRest⟩ := ih (fun r' hr' => by
      have hLe := hBack r' (List.mem_cons_of_mem _ hr')
      simp only [byteLength_append] at hLe
      omega) rfl
    exact ⟨kept ++ r.updated.toList ++ result', by simp only [List.append_assoc],
      .patch hStart hStop hRest⟩

/-- In front of the first patch the text starts as it did. -/
theorem head?_eq (h : Patched offset text rs result) (hFront : ∀ r ∈ rs, offset ≤ r.start) :
    result.head? = text.head? := by
  cases h with
  | rest => rfl
  | @patch _ kept _ _ _ r _ hStart _ _ =>
    have hLe := hFront r List.mem_cons_self
    cases kept with
    | nil =>
      rw [byteLength_nil] at hStart
      omega
    | cons c kept => rfl

/-- Without replacements nothing changes. -/
theorem eq_of_nil (h : Patched offset text [] result) : result = text := by
  cases h
  rfl

end Patched

-- ---------------------------------------------------------------------------
-- The replacements that are made
-- ---------------------------------------------------------------------------

namespace Editing

/-- Whether a replacement is made rather than passed over. -/
def takes (text : Editing) (r : Replacement) : Bool :=
  decide (r.stop ≤ text.floor) && decide (r.start + 2 ≤ r.stop)
    && isBoundary text.ahead (r.start + 1) && isBoundary text.ahead (r.stop - 1)

/-- The replacements that are made, in the order in which they are worked through. -/
def made (text : Editing) : List Replacement → List Replacement
  | [] => []
  | r :: rs => if text.takes r then r :: (text.apply r).made rs else text.made rs

/-- A replacement that is made takes out what stands between its quotes. -/
theorem apply_of_takes {text : Editing} {r : Replacement} (h : text.takes r = true) :
    ∃ kept inside back, text.ahead = kept ++ inside ++ back ∧
      byteLength kept = r.start + 1 ∧ byteLength kept + byteLength inside + 1 = r.stop ∧
      text.apply r = ⟨kept, r.start, r.updated.toList ++ back ++ text.done⟩ := by
  simp only [takes, Bool.and_eq_true, decide_eq_true_eq] at h
  obtain ⟨⟨⟨hFloor, hQuotes⟩, hStart⟩, hStop⟩ := h
  obtain ⟨front, back, hAhead, hFront⟩ := isBoundary_iff.1 hStop
  obtain ⟨kept, behind, hAhead', hKept⟩ := isBoundary_iff.1 hStart
  obtain ⟨inside, rfl, -⟩ := eq_append_of_le (hAhead' ▸ hAhead) (by omega)
  have hLength : byteLength (kept ++ inside) = byteLength kept + byteLength inside :=
    byteLength_append kept inside
  refine ⟨kept, inside, back, hAhead, hKept, by omega, ?_⟩
  have hBack : cutAt? text.ahead (r.stop - 1) = some (kept ++ inside, back) :=
    cutAt?_eq_some_iff.2 ⟨hAhead, hFront⟩
  have hInside : cutAt? (kept ++ inside) (r.start + 1) = some (kept, inside) :=
    cutAt?_eq_some_iff.2 ⟨rfl, hKept⟩
  rw [apply, if_neg (by omega), hBack]
  simp only [hInside]

/-- A replacement that is passed over changes nothing. -/
theorem apply_of_not_takes {text : Editing} {r : Replacement} (h : text.takes r = false) :
    text.apply r = text := by
  unfold apply
  split
  · rfl
  · rename_i hBounds
    split
    · rfl
    · rename_i front back hCut
      split
      · rfl
      · rename_i kept inside hCut'
        obtain ⟨hAhead, hFront⟩ := cutAt?_eq_some_iff.1 hCut
        obtain ⟨rfl, hKept⟩ := cutAt?_eq_some_iff.1 hCut'
        have hTakes : text.takes r = true := by
          simp only [takes, Bool.and_eq_true, decide_eq_true_eq]
          refine ⟨⟨⟨by omega, by omega⟩, ?_⟩, ?_⟩
          · exact isBoundary_iff.2 ⟨kept, inside ++ back, by rw [hAhead, List.append_assoc], hKept⟩
          · exact isBoundary_iff.2 ⟨kept ++ inside, back, hAhead, hFront⟩
        rw [hTakes] at h
        contradiction

/-- The finished part of an edited text is the patched rest of the source. -/
structure Patches (text : Editing) (source : List Char) (rs : List Replacement) : Prop where
  patched : ∃ behind, source = text.ahead ++ behind ∧
    Patched (byteLength text.ahead) behind rs text.done

theorem patches_start (source : List Char) : (start source).Patches source [] :=
  ⟨[], by simp [start], .rest _ _⟩

/-- One replacement that is made adds one patch in front. -/
theorem Patches.apply {text : Editing} {source : List Char} {r : Replacement}
    {rs : List Replacement} (h : text.Patches source rs) (hTakes : text.takes r = true) :
    (text.apply r).Patches source (r :: rs) := by
  obtain ⟨behind, rfl, hPatched⟩ := h.patched
  obtain ⟨kept, inside, back, hAhead, hStart, hStop, hApply⟩ := apply_of_takes hTakes
  rw [hApply]
  refine ⟨inside ++ (back ++ behind), by rw [hAhead]; simp only [List.append_assoc], ?_⟩
  have hBack : Patched (byteLength kept + byteLength inside) (back ++ behind) rs
      (back ++ text.done) := by
    apply Patched.prepend
    rw [hAhead, byteLength_append, byteLength_append] at hPatched
    exact hPatched
  have hHere := Patched.here hStart hStop hBack
  simpa only [List.append_assoc] using hHere

/-- A run adds the replacements that are made. -/
theorem Patches.foldl {text : Editing} {source : List Char} {rs : List Replacement}
    (h : text.Patches source rs) (todo : List Replacement) :
    (todo.foldl Editing.apply text).Patches source ((text.made todo).reverse ++ rs) := by
  induction todo generalizing text rs with
  | nil => simpa [made] using h
  | cons r todo ih =>
    rw [List.foldl_cons, made]
    cases hTakes : text.takes r with
    | true =>
      have hNext := ih (h.apply hTakes)
      simpa only [if_true, List.reverse_cons, List.append_assoc, List.singleton_append]
        using hNext
    | false =>
      rw [apply_of_not_takes hTakes]
      simpa only [Bool.false_eq_true, if_false] using ih h

end Editing

/-- The replacements that splicing makes, in the order of the text. -/
def madeReplacements (source : String) (replacements : List Replacement) : List Replacement :=
  ((Editing.start source.toList).made (Replacement.latestFirst replacements)).reverse

/-- **Splicing patches.** For every list of replacements, the text that comes out is the source
with the insides of the replacements that have been made exchanged, one after the other, and with
everything else kept. Those that are passed over leave no trace. Nothing is asked of the list. -/
theorem splice_patched (source : String) (replacements : List Replacement) :
    Patched 0 source.toList (madeReplacements source replacements)
      (splice source replacements).toList := by
  have hRun := (Editing.patches_start source.toList).foldl
    (Replacement.latestFirst replacements)
  obtain ⟨behind, hSource, hPatched⟩ := hRun.patched
  rw [List.append_nil, ← madeReplacements] at hPatched
  rw [splice, String.toList_ofList, Editing.chars]
  generalize hEdited : List.foldl _ _ _ = edited at hSource hPatched
  rw [hSource]
  exact Patched.prepend edited.ahead (by simpa using hPatched)

-- ---------------------------------------------------------------------------
-- Ranges that follow one another
-- ---------------------------------------------------------------------------

/-- The range has room for two quotes, and the text can be cut behind the first one and in front of
the last one. -/
def Replacement.fits (source : List Char) (r : Replacement) : Bool :=
  decide (r.start + 2 ≤ r.stop) && isBoundary source (r.start + 1) && isBoundary source (r.stop - 1)

/-- Replacements of ranges of the text that follow one another. -/
structure Ordered (source : List Char) (rs : List Replacement) : Prop where
  bounds : ∀ r ∈ rs, r.start < r.stop ∧ r.stop ≤ byteLength source
  ordered : rs.Pairwise fun l r => l.stop ≤ r.start

theorem Ordered.sublist {source : List Char} {rs rs' : List Replacement} (h : Ordered source rs)
    (hSub : rs'.Sublist rs) : Ordered source rs' :=
  ⟨fun r hr => h.bounds r (hSub.subset hr), h.ordered.sublist hSub⟩

/-- A cut of the text in its front part is a cut of that part. -/
theorem isBoundary_append {a b : List Char} {n : Nat} (hLe : n ≤ byteLength a) :
    isBoundary (a ++ b) n = isBoundary a n := by
  rw [Bool.eq_iff_iff, isBoundary_iff, isBoundary_iff]
  constructor
  · rintro ⟨front, back, hParts, rfl⟩
    obtain ⟨c, rfl, -⟩ := eq_append_of_le hParts.symm hLe
    exact ⟨front, c, rfl, rfl⟩
  · rintro ⟨front, back, rfl, rfl⟩
    exact ⟨front, back ++ b, List.append_assoc .., rfl⟩

/-- Ranges that follow one another start one after the other, so the last one is worked through
first. -/
theorem latestFirst_of_ordered {source : List Char} {rs : List Replacement}
    (h : Ordered source rs) : Replacement.latestFirst rs = rs.reverse := by
  have hStarts : rs.Pairwise fun l r => l.start < r.start := by
    refine h.ordered.imp_of_mem fun {l r} hl _ hStop => ?_
    have := (h.bounds l hl).1
    omega
  have hReversed : rs.reverse.Pairwise fun l r => decide (r.start ≤ l.start) = true := by
    rw [List.pairwise_reverse]
    exact hStarts.imp fun {l r} hLt => by simpa using Nat.le_of_lt hLt
  have hPerm : (Replacement.latestFirst rs).Perm rs.reverse :=
    (List.mergeSort_perm rs _).trans rs.reverse_perm.symm
  have hSorted : (Replacement.latestFirst rs).Pairwise fun l r =>
      decide (r.start ≤ l.start) = true := by
    apply List.pairwise_mergeSort
    · intro a b c hab hbc
      simp only [decide_eq_true_eq] at *
      omega
    · intro a b
      simp only [Bool.or_eq_true, decide_eq_true_eq]
      omega
  have hInjective : ∀ ⦃l⦄, l ∈ rs → ∀ ⦃r⦄, r ∈ rs → l.start = r.start → l = r := by
    have : Std.Symm fun l r : Replacement => l.start = r.start → l = r :=
      ⟨fun _ _ h hStart => (h hStart.symm).symm⟩
    refine List.Pairwise.forall_of_forall (fun _ _ _ => rfl) (hStarts.imp fun hLt hEq => ?_)
    exact absurd hEq (Nat.ne_of_lt hLt)
  refine hPerm.eq_of_pairwise (fun l r hl hr hlr hrl => ?_) hSorted hReversed
  simp only [decide_eq_true_eq] at hlr hrl
  exact hInjective (List.mem_reverse.1 (hPerm.mem_iff.1 hl)) (List.mem_reverse.1 hr) (by omega)

namespace Editing

/-- A range in front of the edits is taken if it fits. -/
theorem takes_eq_fits {behind : List Char} {text : Editing} {r : Replacement}
    (hFloor : text.floor ≤ byteLength text.ahead) (hPos : 0 < r.stop)
    (hFront : r.stop ≤ text.floor) :
    text.takes r = r.fits (text.ahead ++ behind) := by
  unfold takes Replacement.fits
  by_cases hRoom : r.start + 2 ≤ r.stop
  · rw [isBoundary_append (by omega), isBoundary_append (by omega)]
    simp [hFront]
  · simp [hRoom]

/-- Of a run of ranges that follow one another those are made that fit: all that each one reaches
for lies in front of the edits. -/
theorem made_of_ordered {source behind : List Char} {text : Editing} {rs : List Replacement}
    (hSource : source = text.ahead ++ behind) (hFloor : text.floor ≤ byteLength text.ahead)
    (h : Ordered source rs) (hFront : ∀ r ∈ rs, r.stop ≤ text.floor) :
    text.made rs.reverse = (rs.filter fun r => r.fits source).reverse := by
  induction rs using List.reverseRecOn generalizing text behind with
  | nil => rfl
  | append_singleton rs r ih =>
    have hr : r ∈ rs ++ [r] := by simp
    obtain ⟨hBefore, -, hStops⟩ := List.pairwise_append.1 h.ordered
    have hOrdered : Ordered source rs := ⟨fun l hl => h.bounds l (by simp [hl]), hBefore⟩
    have hBounds := h.bounds r hr
    have hTakes : text.takes r = r.fits source :=
      hSource ▸ takes_eq_fits hFloor (by omega) (hFront r hr)
    rw [List.reverse_append, List.reverse_singleton, List.singleton_append, made, hTakes,
      List.filter_append, List.reverse_append]
    cases hFits : r.fits source with
    | false =>
      have hRest := ih hSource hFloor hOrdered fun l hl => hFront l (by simp [hl])
      simp [hFits, hRest]
    | true =>
      obtain ⟨kept, inside, back, hAhead, hKept, -, hApply⟩ := apply_of_takes (hTakes.trans hFits)
      have hRest : (text.apply r).made rs.reverse
          = (rs.filter fun r => r.fits source).reverse := by
        rw [hApply]
        have hRestSource : source = kept ++ (inside ++ (back ++ behind)) := by
          rw [hSource, hAhead]
          simp only [List.append_assoc]
        refine ih hRestSource ?_ hOrdered fun l hl => hStops l hl r (by simp)
        show r.start ≤ byteLength kept
        omega
      simp [hFits, hRest]

end Editing

/-- Of ranges that follow one another, those are made that fit. -/
theorem madeReplacements_of_ordered {source : String} {rs : List Replacement}
    (h : Ordered source.toList rs) :
    madeReplacements source rs = rs.filter fun r => r.fits source.toList := by
  have hSource : source.toList = (Editing.start source.toList).ahead ++ [] :=
    (List.append_nil _).symm
  rw [madeReplacements, latestFirst_of_ordered h,
    Editing.made_of_ordered hSource (Nat.le_refl (byteLength source.toList)) h
      (fun r hr => (h.bounds r hr).2), List.reverse_reverse]

-- ---------------------------------------------------------------------------
-- Quoted ranges
-- ---------------------------------------------------------------------------

/-- A range of the text between two characters of one byte, which are taken for quotes. -/
def QuotedAt (source : List Char) (start stop : Nat) : Prop :=
  ∃ front opening inside closing behind,
    source = front ++ opening :: (inside ++ closing :: behind) ∧
    byteLength front = start ∧ byteLength front + 1 + byteLength inside + 1 = stop ∧
    opening.utf8Size = 1 ∧ closing.utf8Size = 1

/-- Replacements of quoted ranges that follow one another. -/
structure InOrder (source : List Char) (rs : List Replacement) : Prop where
  quoted : ∀ r ∈ rs, QuotedAt source r.start r.stop
  ordered : rs.Pairwise fun l r => l.stop ≤ r.start

theorem QuotedAt.bounds {source : List Char} {start stop : Nat}
    (h : QuotedAt source start stop) : start + 2 ≤ stop ∧ stop ≤ byteLength source := by
  obtain ⟨front, opening, inside, closing, behind, rfl, rfl, rfl, hOpening, hClosing⟩ := h
  simp only [byteLength_append, byteLength_cons]
  omega

/-- The text can be cut behind the opening quote and in front of the closing one. -/
theorem QuotedAt.cuts {source : List Char} {start stop : Nat} (h : QuotedAt source start stop) :
    isBoundary source (start + 1) = true ∧ isBoundary source (stop - 1) = true := by
  obtain ⟨front, opening, inside, closing, behind, rfl, rfl, rfl, hOpening, hClosing⟩ := h
  constructor
  · exact isBoundary_iff.2 ⟨front ++ [opening], inside ++ closing :: behind, by simp,
      by simp [hOpening]⟩
  · exact isBoundary_iff.2 ⟨front ++ opening :: inside, closing :: behind, by simp,
      by simp only [byteLength_append, byteLength_cons]; omega⟩

/-- A quoted range fits. -/
theorem QuotedAt.fits {source : List Char} {r : Replacement}
    (h : QuotedAt source r.start r.stop) : r.fits source = true := by
  simp [Replacement.fits, h.bounds.1, h.cuts]

theorem InOrder.toOrdered {source : List Char} {rs : List Replacement} (h : InOrder source rs) :
    Ordered source rs := by
  refine ⟨fun r hr => ?_, h.ordered⟩
  have := (h.quoted r hr).bounds
  omega

theorem madeReplacements_of_inOrder {source : String} {rs : List Replacement}
    (h : InOrder source.toList rs) : madeReplacements source rs = rs := by
  rw [madeReplacements_of_ordered h.toOrdered, List.filter_eq_self]
  exact fun r hr => (h.quoted r hr).fits

/-- No well placed replacement is passed over. -/
theorem made_of_inOrder {source : String} {rs : List Replacement}
    (h : InOrder source.toList rs) :
    (Editing.start source.toList).made (Replacement.latestFirst rs)
      = Replacement.latestFirst rs := by
  have hMade : madeReplacements source rs = rs := madeReplacements_of_inOrder h
  rw [madeReplacements, List.reverse_eq_iff] at hMade
  rw [hMade, latestFirst_of_ordered h.toOrdered]

/-- Splicing well placed replacements exchanges the inside of every one of them. -/
theorem splice_patched_of_inOrder {source : String} {rs : List Replacement}
    (h : InOrder source.toList rs) : Patched 0 source.toList rs (splice source rs).toList := by
  have hPatched := splice_patched source rs
  rwa [madeReplacements_of_inOrder h] at hPatched

end Relocation

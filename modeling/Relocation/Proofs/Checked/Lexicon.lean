import Mathlib.Data.List.Nodup
import Relocation.Proofs.Checked.Text
import Relocation.Proofs.Lexicon

/-!
# Looking up a token by halving

The ranges of a lexicon lie in the order of their starts, and no two of them start alike. So a start
need not be looked for one range after the other: the ranges are halved, again and again, until one
is left. That finds the range that looking through the ranges as they came would find first, and it
never reaches behind their end.

## Results

* `Lexicon.pairwise_ofRanges`: the ranges of a lexicon lie in order;
* `Checked.search_eq_ok`: halving finds what looking through the ranges finds;
* `Checked.lookUp_parsed`: so looking up a range of a parsed source succeeds, with any reader;
* `ParsedSource.isSourceToken_ofRanges`: which ranges are tokens of a source, whatever its scanner
  gives.
-/

namespace Relocation

open TypeScript

variable {ranges : List ByteRange} {range : ByteRange} {start : Nat}

-- ---------------------------------------------------------------------------
-- Lexicons in order
-- ---------------------------------------------------------------------------

namespace TypeScript

namespace ByteRange

theorem pairwise_byStart (ranges : List ByteRange) :
    (byStart ranges).Pairwise fun l r => l.start ≤ r.start := by
  refine (List.pairwise_mergeSort ?_ ?_ ranges).imp of_decide_eq_true
  · intro a b c hab hbc
    simp only [decide_eq_true_eq] at *
    omega
  · intro a b
    simp only [Bool.or_eq_true, decide_eq_true_eq]
    omega

theorem distinctStarts_subset (ranges : List ByteRange) : distinctStarts ranges ⊆ ranges := by
  induction ranges with
  | nil => exact List.Subset.refl _
  | cons r rs ih =>
    rw [distinctStarts]
    split
    · exact List.cons_subset_cons r (List.nil_subset rs)
    · rename_i s rest hRest
      rw [hRest] at ih
      split
      · exact List.cons_subset_cons r fun t hMem => ih (List.mem_cons_of_mem s hMem)
      · exact List.cons_subset_cons r ih

/-- Of ranges in order one is left for each start. -/
theorem pairwise_distinctStarts (h : ranges.Pairwise fun l r => l.start ≤ r.start) :
    (distinctStarts ranges).Pairwise fun l r => l.start < r.start := by
  induction ranges with
  | nil => exact .nil
  | cons r rs ih =>
    obtain ⟨hFirst, hRest⟩ := List.pairwise_cons.1 h
    have hOrder := ih hRest
    have hSubset := distinctStarts_subset rs
    rw [distinctStarts]
    split
    · exact List.pairwise_singleton _ r
    · rename_i s rest hKept
      rw [hKept] at hOrder hSubset
      obtain ⟨hHere, hBehind⟩ := List.pairwise_cons.1 hOrder
      split
      · rename_i hSame
        exact List.pairwise_cons.2 ⟨fun t hMem => hSame ▸ hHere t hMem, hBehind⟩
      · rename_i hOther
        have hLt : r.start < s.start :=
          Nat.lt_of_le_of_ne (hFirst s (hSubset List.mem_cons_self)) (Ne.symm hOther)
        refine List.pairwise_cons.2 ⟨fun t hMem => ?_, hOrder⟩
        rcases List.mem_cons.1 hMem with rfl | hMem
        · exact hLt
        · exact Nat.lt_trans hLt (hHere t hMem)

end ByteRange

/-- The ranges of a lexicon lie in the order of their starts, and no two of them start alike. -/
theorem Lexicon.pairwise_ofRanges (ranges : List ByteRange) :
    (ofRanges ranges).ranges.Pairwise fun l r => l.start < r.start :=
  ByteRange.pairwise_distinctStarts (ByteRange.pairwise_byStart ranges)

end TypeScript

-- ---------------------------------------------------------------------------
-- Halving
-- ---------------------------------------------------------------------------

namespace Checked

/-- The index of the range with the start, among the `size` ranges from `base` on, if it is one of
them. The part that cannot hold it is left out, until one range is left. -/
def searchWithin (ranges : List ByteRange) (start base size : Nat) : Except Trap (Option Nat) :=
  if size ≤ 1 then do
    let last ← nth ranges base
    return if last.start = start then some base else none
  else do
    let middle ← nth ranges (base + size / 2)
    searchWithin ranges start (if start < middle.start then base else base + size / 2)
      (size - size / 2)
termination_by size

/-- The index of the range with the start. -/
def search (ranges : List ByteRange) (start : Nat) : Except Trap (Option Nat) :=
  if ranges.length = 0 then return none else searchWithin ranges start 0 ranges.length

/-- One step of the halving looks at the middle and goes on with one of the halves. -/
theorem searchWithin_step {base size : Nat} {middle : ByteRange} (hMore : 1 < size)
    (hMiddle : ranges[base + size / 2]? = some middle) :
    searchWithin ranges start base size
      = searchWithin ranges start (if start < middle.start then base else base + size / 2)
          (size - size / 2) := by
  rw [searchWithin, if_neg (by omega), nth_eq_ok hMiddle, ok_bind]

/-- Halving stays among the ranges, and what it finds has the start. -/
theorem searchWithin_sound {base size : Nat} (hSome : 0 < size)
    (hSize : base + size ≤ ranges.length) :
    ∃ found?, searchWithin ranges start base size = .ok found? ∧
      ∀ i, found? = some i → ∃ token, ranges[i]? = some token ∧ token.start = start := by
  induction hLength : size using Nat.strongRecOn generalizing base size with
  | _ n ih =>
  subst hLength
  by_cases hMore : 1 < size
  · rw [searchWithin_step hMore (List.getElem?_eq_getElem (by omega))]
    refine ih (size - size / 2) (by omega) (by omega) ?_ rfl
    split <;> omega
  · have hLast : ranges[base]? = some ranges[base] := List.getElem?_eq_getElem (by omega)
    rw [searchWithin, if_pos (by omega), nth_eq_ok hLast, ok_bind]
    refine ⟨_, rfl, fun i hFound => ?_⟩
    split at hFound
    · rename_i hStart
      obtain rfl := Option.some.inj hFound
      exact ⟨_, hLast, hStart⟩
    · contradiction

/-- Halving finds the start wherever it is: the half that is left out in front starts earlier, and
the one that is left out behind starts later. -/
theorem searchWithin_of_getElem? (h : ranges.Pairwise fun l r => l.start < r.start)
    {base size i : Nat} {token : ByteRange} (hSize : base + size ≤ ranges.length)
    (hToken : ranges[i]? = some token) (hStart : token.start = start) (hLow : base ≤ i)
    (hHigh : i < base + size) : searchWithin ranges start base size = .ok (some i) := by
  induction hLength : size using Nat.strongRecOn generalizing base size with
  | _ n ih =>
  subst hLength
  by_cases hMore : 1 < size
  · obtain ⟨hi, hHere⟩ := List.getElem?_eq_some_iff.1 hToken
    have hj : base + size / 2 < ranges.length := by omega
    have hOrder := List.pairwise_iff_getElem.1 h
    rw [searchWithin_step hMore (List.getElem?_eq_getElem hj)]
    split
    · rename_i hEarly
      refine ih (size - size / 2) (by omega) (by omega) hLow ?_ rfl
      by_contra hLate
      rcases Nat.lt_or_eq_of_le (show base + size / 2 ≤ i by omega) with hBehind | rfl
      · have hRising := hOrder _ _ hj hi hBehind
        rw [hHere] at hRising
        omega
      · rw [hHere] at hEarly
        omega
    · rename_i hLate
      refine ih (size - size / 2) (by omega) (by omega) ?_ (by omega) rfl
      by_contra hEarly
      have hRising := hOrder _ _ hi hj (by omega)
      rw [hHere] at hRising
      omega
  · obtain rfl : base = i := by omega
    rw [searchWithin, if_pos (by omega), nth_eq_ok hToken, ok_bind, if_pos hStart]
    rfl

/-- In a row of ranges with rising starts the search finds the first range with the start. -/
theorem search_eq_ok (h : ranges.Pairwise fun l r => l.start < r.start) (start : Nat) :
    search ranges start = .ok (ranges.findIdx? fun token => token.start == start) := by
  rw [search]
  by_cases hNone : ranges.length = 0
  · rw [if_pos hNone, List.length_eq_zero_iff.1 hNone]
    rfl
  rw [if_neg hNone]
  cases hIndex : ranges.findIdx? fun token => token.start == start with
  | some i =>
    obtain ⟨hi, hHere, -⟩ := List.findIdx?_eq_some_iff_getElem.1 hIndex
    exact searchWithin_of_getElem? h (by omega) (List.getElem?_eq_getElem hi) (beq_iff_eq.1 hHere)
      (Nat.zero_le i) (by omega)
  | none =>
    obtain ⟨found?, hFound, hSound⟩ : ∃ found?, searchWithin ranges start 0 ranges.length
          = .ok found? ∧
        ∀ i, found? = some i → ∃ token, ranges[i]? = some token ∧ token.start = start :=
      searchWithin_sound (Nat.pos_of_ne_zero hNone) (by omega)
    rw [hFound]
    cases found? with
    | none => rfl
    | some i =>
      obtain ⟨token, hToken, hStart⟩ := hSound i rfl
      have hOther := List.findIdx?_eq_none_iff.1 hIndex token (List.mem_of_getElem? hToken)
      rw [hStart, beq_self_eq_true] at hOther
      contradiction

/-- Whether the range is a token of the source, looked up by halving. -/
def lookUp (parsed : ParsedSource) (range : ByteRange) : Except Trap Bool :=
  match parsed.lexicon with
  | none => return true
  | some lexicon => do
    match ← search lexicon.ranges range.start with
    | none => return false
    | some i => do
      let token ← nth lexicon.ranges i
      return token.stop == range.stop

/-- Where nothing had to be blanked, every range counts as a token. -/
theorem lookUp_of_none {parsed : ParsedSource} (h : parsed.lexicon = none) (range : ByteRange) :
    lookUp parsed range = .ok (parsed.isSourceToken range) := by
  rw [lookUp, ParsedSource.isSourceToken, h]
  rfl

/-- In a lexicon of ranges halving finds what there is to be found. -/
theorem lookUp_eq_ok {parsed : ParsedSource} (h : parsed.lexicon = some (.ofRanges ranges))
    (range : ByteRange) : lookUp parsed range = .ok (parsed.isSourceToken range) := by
  rw [lookUp, ParsedSource.isSourceToken, h, Option.all_some, Lexicon.isToken]
  dsimp only
  rewrite [search_eq_ok (Lexicon.pairwise_ofRanges ranges), ok_bind]
  generalize (Lexicon.ofRanges ranges).ranges = sorted
  cases hIndex : sorted.findIdx? fun token => token.start == range.start with
  | none =>
    have hNone : (sorted.find? fun token => token.start == range.start) = none := by
      rw [List.find?_eq_none]
      intro token hToken
      rw [List.findIdx?_eq_none_iff.1 hIndex token hToken]
      decide
    rw [hNone]
    rfl
  | some i =>
    obtain ⟨hLt, hHere, hBefore⟩ := List.findIdx?_eq_some_iff_getElem.1 hIndex
    have hSome : (sorted.find? fun token => token.start == range.start) = some sorted[i] := by
      refine List.find?_eq_some_iff_getElem.2 ⟨hHere, i, hLt, rfl, ?_⟩
      intro j hj
      simpa using hBefore j hj
    rw [hSome]
    dsimp only
    rw [nth_eq_ok (List.getElem?_eq_getElem hLt)]
    rfl

/-- In what a reader makes of a source every look-up succeeds. -/
theorem lookUp_parsed (reader : Reader) (source : List Char) (recovered : Recovered (List Item))
    (range : ByteRange) :
    lookUp (reader.parsed source recovered) range
      = .ok ((reader.parsed source recovered).isSourceToken range) := by
  by_cases hSame : recovered.working.text = source
  · exact lookUp_of_none (if_pos hSame) range
  · exact lookUp_eq_ok (if_neg hSame) range

end Checked

-- ---------------------------------------------------------------------------
-- Tokens of a source
-- ---------------------------------------------------------------------------

namespace ParsedSource

/-- A range is a token of a source that had to be blanked if it is the first one with its start
that the scanner gives. -/
theorem isSourceToken_iff_exists {parsed : ParsedSource}
    (h : parsed.lexicon = some (.ofRanges ranges)) :
    parsed.isSourceToken range = true ↔ ∃ before behind, ranges = before ++ range :: behind ∧
      ∀ token ∈ before, token.start ≠ range.start := by
  rw [isSourceToken, h, Option.all_some, Lexicon.isToken_ofRanges, Lexicon.isToken_iff,
    List.find?_eq_some_iff_append]
  simp only [beq_self_eq_true, true_and, Bool.not_eq_true', beq_eq_false_iff_ne]

/-- **Looking up a token.** The ranges of the tokens are sorted by their starts, one range is kept
for each start, and a range is looked up by halving. That succeeds, and the range is found if and
only if it is the first of the ranges with its start, in the order in which they came. So nothing
is found that the scanner has not given, and everything that it has given if no two ranges start
alike.

`h` says that the source had to be blanked and that its tokens have these ranges, which may be
empty, may start alike and may come in any order. -/
theorem isSourceToken_ofRanges {parsed : ParsedSource}
    (h : parsed.lexicon = some (.ofRanges ranges)) (range : ByteRange) :
    Checked.lookUp parsed range = .ok (parsed.isSourceToken range) ∧
      (parsed.isSourceToken range = true ↔ ∃ before behind, ranges = before ++ range :: behind ∧
        ∀ token ∈ before, token.start ≠ range.start) ∧
      ((ranges.map ByteRange.start).Nodup →
        (parsed.isSourceToken range = true ↔ range ∈ ranges)) ∧
      (parsed.isSourceToken range = true → range ∈ ranges) := by
  have hFirst : parsed.isSourceToken range = true ↔ ∃ before behind,
      ranges = before ++ range :: behind ∧ ∀ token ∈ before, token.start ≠ range.start :=
    isSourceToken_iff_exists h
  have hGiven (hToken : parsed.isSourceToken range = true) : range ∈ ranges := by
    obtain ⟨before, behind, rfl, -⟩ := hFirst.1 hToken
    exact List.mem_append_right _ List.mem_cons_self
  refine ⟨Checked.lookUp_eq_ok h range, hFirst, fun hApart => ⟨hGiven, fun hMem => ?_⟩, hGiven⟩
  obtain ⟨before, behind, rfl⟩ := List.append_of_mem hMem
  refine hFirst.2 ⟨before, behind, rfl, fun token hToken hSame => ?_⟩
  -- two ranges with one start would be in two parts of the list
  rw [List.map_append, List.map_cons] at hApart
  refine List.disjoint_of_nodup_append hApart (List.mem_map_of_mem hToken) ?_
  rw [hSame]
  exact List.mem_cons_self

/-- Ranges in no order, of which two start alike and one is empty. -/
def looseRanges : List ByteRange := [⟨5, 8⟩, ⟨0, 3⟩, ⟨5, 5⟩, ⟨4, 4⟩]

/-- A source with these for its tokens. -/
def looseSource : ParsedSource := ⟨[], [], some (.ofRanges looseRanges)⟩

/-- Of the two ranges that start alike only the first is a token. -/
theorem isSourceToken_looseSource :
    looseSource.lexicon = some (.ofRanges looseRanges) ∧
      Checked.lookUp looseSource ⟨5, 8⟩ = .ok true ∧ Checked.lookUp looseSource ⟨5, 5⟩ = .ok false ∧
      ⟨5, 5⟩ ∈ looseRanges := by
  have hLexicon : looseSource.lexicon = some (.ofRanges looseRanges) := rfl
  obtain ⟨hHere, hFirst, -⟩ := isSourceToken_ofRanges hLexicon ⟨5, 8⟩
  obtain ⟨hThere, hSecond, -⟩ := isSourceToken_ofRanges hLexicon ⟨5, 5⟩
  refine ⟨hLexicon, ?_, ?_, by decide⟩
  · rw [hHere, hFirst.2 ⟨[], _, rfl, fun _ hMem => absurd hMem List.not_mem_nil⟩]
  · have hOther : ¬looseSource.isSourceToken ⟨5, 5⟩ = true := by
      rw [hSecond]
      rintro ⟨before, behind, hParts, hBefore⟩
      cases before with
      | nil => exact absurd (List.cons.inj hParts).1 (by decide)
      | cons first before =>
        obtain ⟨rfl, -⟩ := List.cons.inj hParts
        exact hBefore _ List.mem_cons_self rfl
    rw [hThere, Bool.eq_false_iff.2 hOther]

end ParsedSource

end Relocation

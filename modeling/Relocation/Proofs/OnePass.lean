import Relocation.Proofs.Arranged
import Relocation.Proofs.Patched

/-!
# Splicing in one pass

The splicer edits a text whose length changes as it goes, and tests each range against the text as
it stands. The same can be said without any edit: choose the ranges on the source, each in front of
the one chosen before it, and then put the pieces of the source between the new texts, from left to
right. Both come to the same, whatever the ranges are, since the text in front of the last edit is
still the source.

## Results

* `accepted`, `assembled`: which replacements count, and the text that they give;
* `Editing.made_eq_accepted`: the splicer makes the replacements that are accepted on the source;
* `Patched.eq_assembled`: a patched text is assembled from pieces of the source;
* `splice_eq_assembled`: splicing is choosing and assembling.
-/

namespace Relocation

open Text

-- ---------------------------------------------------------------------------
-- Pieces of a text
-- ---------------------------------------------------------------------------

namespace Text

/-- The part of the text from an offset on. -/
def behind (cs : List Char) (offset : Nat) : List Char :=
  ((cutAt? cs offset).map Prod.snd).getD []

/-- The part of the text from one offset up to another. -/
def between (cs : List Char) (start stop : Nat) : List Char := behind (before cs stop) start

theorem behind_append (a b : List Char) : behind (a ++ b) (byteLength a) = b := by
  rw [behind, cutAt?_append]
  rfl

theorem between_append (a b c : List Char) :
    between (a ++ (b ++ c)) (byteLength a) (byteLength a + byteLength b) = b := by
  rw [between, ← List.append_assoc, ← byteLength_append, before_append, behind_append]

end Text

-- ---------------------------------------------------------------------------
-- Choosing and assembling
-- ---------------------------------------------------------------------------

/-- The replacements that are accepted: each fits into the source and ends in front of the one
accepted before it, the first one in front of the floor. -/
def accepted (source : List Char) : Nat → List Replacement → List Replacement
  | _, [] => []
  | floor, r :: rs =>
    if r.stop ≤ floor ∧ r.fits source = true then r :: accepted source r.start rs
    else accepted source floor rs

/-- The source from an offset on, with the new text of each replacement in place of what stands
between its quotes. The replacements stand in the order of the text. -/
def assembled (source : List Char) : Nat → List Replacement → List Char
  | offset, [] => behind source offset
  | offset, r :: rs =>
    between source offset (r.start + 1) ++ r.updated.toList ++ assembled source (r.stop - 1) rs

variable {source : List Char} {floor : Nat} {r : Replacement} {rs : List Replacement}

/-- What fits has room for two quotes. -/
theorem Replacement.room_of_fits (h : r.fits source = true) : r.start + 2 ≤ r.stop := by
  rw [fits, Bool.and_eq_true, Bool.and_eq_true] at h
  exact of_decide_eq_true h.1.1

/-- What is accepted fits into the source and ends in front of the floor. -/
theorem of_mem_accepted (h : r ∈ accepted source floor rs) :
    r.stop ≤ floor ∧ r.fits source = true := by
  induction rs generalizing floor with
  | nil => contradiction
  | cons head rs ih =>
    rw [accepted] at h
    split at h
    · rename_i hHead
      rcases List.mem_cons.1 h with rfl | hRest
      · exact hHead
      · obtain ⟨hStop, hFits⟩ := ih hRest
        have hRoom : head.start + 2 ≤ head.stop := Replacement.room_of_fits hHead.2
        exact ⟨by omega, hFits⟩
    · exact ih h

/-- The ranges that are accepted do not overlap. -/
theorem accepted_pairwise (source : List Char) (floor : Nat) (rs : List Replacement) :
    (accepted source floor rs).Pairwise fun l r => r.stop ≤ l.start := by
  induction rs generalizing floor with
  | nil => exact List.Pairwise.nil
  | cons r rs ih =>
    rw [accepted]
    split
    · exact List.pairwise_cons.2 ⟨fun s hs => (of_mem_accepted hs).1, ih r.start⟩
    · exact ih floor

/-- In the order of the text, the ranges that are accepted follow one another. -/
theorem ordered_accepted (hFloor : floor ≤ byteLength source) :
    Ordered source (accepted source floor rs).reverse := by
  refine ⟨?_, List.pairwise_reverse.2 (accepted_pairwise source floor rs)⟩
  intro r hr
  obtain ⟨hStop, hFits⟩ := of_mem_accepted (List.mem_reverse.1 hr)
  have hRoom : r.start + 2 ≤ r.stop := Replacement.room_of_fits hFits
  exact ⟨by omega, by omega⟩

-- ---------------------------------------------------------------------------
-- The edited text and the source
-- ---------------------------------------------------------------------------

/-- In front of the edits, a range is taken if it fits into the source. -/
theorem Editing.takes_iff {text : Editing} {behind : List Char}
    (hSource : source = text.ahead ++ behind) (hFloor : text.floor ≤ byteLength text.ahead)
    (r : Replacement) : text.takes r = true ↔ r.stop ≤ text.floor ∧ r.fits source = true := by
  by_cases hStop : 0 < r.stop ∧ r.stop ≤ text.floor
  · rw [takes_eq_fits hFloor hStop.1 hStop.2, hSource]
    exact ⟨fun hFits => ⟨hStop.2, hFits⟩, fun h => h.2⟩
  · simp only [takes, Replacement.fits, Bool.and_eq_true, decide_eq_true_eq]
    omega

/-- The splicer makes the replacements that are accepted on the source, although it holds each of
them against the text as edited so far. `hSource` and `hFloor` are the invariant of its loop: up
to the floor the text is still the source, and each replacement that is made moves the floor to
its start. -/
theorem Editing.made_eq_accepted {text : Editing} {behind : List Char}
    (hSource : source = text.ahead ++ behind) (hFloor : text.floor ≤ byteLength text.ahead)
    (rs : List Replacement) : text.made rs = accepted source text.floor rs := by
  induction rs generalizing text behind with
  | nil => rfl
  | cons r rs ih =>
    have hIff := takes_iff hSource hFloor r
    rw [made, accepted]
    by_cases hTakes : text.takes r = true
    · rw [if_pos hTakes, if_pos (hIff.1 hTakes)]
      obtain ⟨kept, inside, back, hAhead, hKept, -, hApply⟩ := apply_of_takes hTakes
      have hNext : source = (text.apply r).ahead ++ (inside ++ (back ++ behind)) := by
        rw [hSource, hAhead, hApply]
        simp only [List.append_assoc]
      have hNextFloor : (text.apply r).floor ≤ byteLength (text.apply r).ahead := by
        rw [hApply]
        show r.start ≤ byteLength kept
        omega
      have hStart : (text.apply r).floor = r.start := by rw [hApply]
      rw [ih hNext hNextFloor, hStart]
    · rw [if_neg hTakes, if_neg (mt hIff.2 hTakes), ih hSource hFloor]

/-- The splicer's replacements, in the order of the text, are those that are accepted. -/
theorem madeReplacements_eq_accepted (source : String) (rs : List Replacement) :
    madeReplacements source rs
      = (accepted source.toList (byteLength source.toList)
          (Replacement.latestFirst rs)).reverse := by
  have hSource : source.toList = (Editing.start source.toList).ahead ++ [] :=
    (List.append_nil _).symm
  rw [madeReplacements, Editing.made_eq_accepted hSource (Nat.le_refl _)]
  rfl

/-- A patched text is assembled from pieces of the source. -/
theorem Patched.eq_assembled {front text result : List Char} {offset : Nat}
    (h : Patched offset text rs result) (hFront : byteLength front = offset) :
    result = assembled (front ++ text) offset rs := by
  induction h generalizing front with
  | rest offset text => rw [assembled, ← hFront, behind_append]
  | @patch offset kept inside text result r rs hStart hStop hRest ih =>
    have hLength : byteLength (front ++ kept ++ inside)
        = offset + byteLength kept + byteLength inside := by
      rw [byteLength_append, byteLength_append, hFront]
    have hSource : front ++ (kept ++ inside ++ text) = front ++ kept ++ inside ++ text := by
      simp only [List.append_assoc]
    have hPiece : between (front ++ (kept ++ inside ++ text)) offset (r.start + 1) = kept := by
      rw [← hStart, ← hFront, List.append_assoc, between_append]
    have hRestEq : result
        = assembled (front ++ (kept ++ inside ++ text)) (r.stop - 1) rs := by
      rw [show r.stop - 1 = offset + byteLength kept + byteLength inside by omega, hSource]
      exact ih hLength
    rw [assembled, hPiece, ← hRestEq]

/-- **Splicing in one pass.** There is one order of the replacements that is latest first and
keeps those with the same start as they are listed. Going through it, a replacement is accepted if
it fits into the source and ends in front of the one accepted before it. The text is assembled
from the source and the accepted replacements alone: splicing these gives the same, so the others
have no effect, and what stands outside the quotes of the accepted ones is kept.

The source and the list are arbitrary: ranges may lie beyond the text, end before they start,
overlap, or cut characters. -/
theorem splice_eq_assembled (source : String) (rs : List Replacement) :
    ∃ order, (∀ other, Arranged rs other ↔ other = order) ∧
      let made := (accepted source.toList (byteLength source.toList) order).reverse
      (splice source rs).toList = assembled source.toList 0 made ∧
      splice source made = splice source rs ∧
      Patched 0 source.toList made (splice source rs).toList := by
  have hArranged := arranged_latestFirst rs
  refine ⟨Replacement.latestFirst rs, ?_, ?_⟩
  · intro other
    constructor
    · exact fun hOther => hOther.unique hArranged
    · rintro rfl
      exact hArranged
  · intro made
    have hPatched : Patched 0 source.toList made (splice source rs).toList := by
      have hMade := splice_patched source rs
      rwa [madeReplacements_eq_accepted] at hMade
    have hOrdered : Ordered source.toList made := ordered_accepted (Nat.le_refl _)
    have hAgain : madeReplacements source made = made := by
      rw [madeReplacements_of_ordered hOrdered, List.filter_eq_self]
      intro r hr
      exact (of_mem_accepted (List.mem_reverse.1 hr)).2
    refine ⟨?_, ?_, hPatched⟩
    · show (splice source rs).toList = assembled ([] ++ source.toList) 0 made
      exact hPatched.eq_assembled rfl
    · have hPatchedAgain := splice_patched source made
      rw [hAgain] at hPatchedAgain
      exact String.toList_inj.1 (hPatchedAgain.unique hPatched)

/-- A range past the end and one without room for two quotes are passed over. -/
example : accepted "import 'a';".toList 11 [⟨9, 40, "b"⟩, ⟨7, 10, "c"⟩, ⟨7, 8, "d"⟩]
    = [⟨7, 10, "c"⟩] := by decide

end Relocation

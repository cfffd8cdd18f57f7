import Relocation.Proofs.Checked.Text
import Relocation.Proofs.Patched

/-!
# Splicing without failures

Here the edited text is one text, and each replacement slices it and exchanges a stretch of it,
which fails if its range is not one of the text as it stands by then. It is one: no range reaches
behind the start of the last edit, so what it is checked against, and cut out of, is still the
front of the source.

## Results

* `Edited.apply_eq_ok`: one replacement;
* `splice_eq_ok`: splicing succeeds for any ranges whatever.
-/

namespace Relocation.Checked

open Text

/-- A text that is being edited from its end. -/
structure Edited where
  text : List Char
  /-- No replacement may reach beyond this offset. -/
  floor : Nat
  deriving Repr, DecidableEq

namespace Edited

/-- Makes one replacement, or passes over it. -/
def apply (edited : Edited) (replacement : Replacement) : Except Trap Edited :=
  if edited.floor < replacement.stop ∨ replacement.stop < replacement.start + 2 then return edited
  else do
    let start := replacement.start + 1
    let stop ← minus replacement.stop 1
    if !isBoundary edited.text start || !isBoundary edited.text stop then return edited
    else do
      -- the old inside is logged
      let _inside ← slice edited.text start stop
      let text ← replaceRange edited.text start stop replacement.updated.toList
      return ⟨text, replacement.start⟩

/-- The same text, with its two parts put together. -/
def ofEditing (text : Editing) : Edited := ⟨text.chars, text.floor⟩

end Edited

/-- The floor lies in the part of the source that is still as it was. -/
def Grounded (text : Editing) : Prop := text.floor ≤ byteLength text.ahead

variable {text : Editing} {r : Replacement}

theorem Grounded.apply (h : Grounded text) (r : Replacement) : Grounded (text.apply r) := by
  cases hTakes : text.takes r with
  | false => rwa [Editing.apply_of_not_takes hTakes]
  | true =>
    obtain ⟨kept, inside, back, -, hKept, -, hApply⟩ := Editing.apply_of_takes hTakes
    rw [hApply]
    show r.start ≤ byteLength kept
    omega

/-- One replacement succeeds. -/
theorem Edited.apply_eq_ok (h : Grounded text) (r : Replacement) :
    (ofEditing text).apply r = .ok (ofEditing (text.apply r)) := by
  have hFloor : text.floor ≤ byteLength text.ahead := h
  unfold Edited.apply ofEditing
  dsimp only
  by_cases hBounds : text.floor < r.stop ∨ r.stop < r.start + 2
  · rw [if_pos hBounds, Editing.apply, if_pos hBounds]
    rfl
  · rw [if_neg hBounds, minus_eq_ok (by omega), ok_bind, Editing.chars,
      isBoundary_append (by omega), isBoundary_append (by omega)]
    cases hTakes : text.takes r with
    | true =>
      obtain ⟨kept, inside, back, hAhead, hStart, hStop, hApply⟩ := Editing.apply_of_takes hTakes
      have hText : text.ahead ++ text.done = kept ++ (inside ++ (back ++ text.done)) := by
        rw [hAhead]
        simp only [List.append_assoc]
      simp only [Editing.takes, Bool.and_eq_true] at hTakes
      rw [hTakes.1.2, hTakes.2, slice_eq_ok hText hStart (by omega),
        replaceRange_eq_ok hText hStart (by omega), hApply]
      simp only [Bool.not_true, Bool.or_self, Bool.false_eq_true, if_false, ok_bind,
        Editing.chars, List.append_assoc]
      rfl
    | false =>
      have hCuts : (!isBoundary text.ahead (r.start + 1)
          || !isBoundary text.ahead (r.stop - 1)) = true := by
        by_contra hNot
        simp only [Bool.or_eq_true, Bool.not_eq_true', not_or, Bool.not_eq_false] at hNot
        have hTaken : text.takes r = true := by
          simp only [Editing.takes, Bool.and_eq_true, decide_eq_true_eq]
          exact ⟨⟨⟨by omega, by omega⟩, hNot.1⟩, hNot.2⟩
        rw [hTakes] at hTaken
        contradiction
      rw [if_pos hCuts, Editing.apply_of_not_takes hTakes]
      rfl

/-- Makes the replacements in the source text. -/
def splice (source : String) (replacements : List Replacement) : Except Trap String := do
  let edited ← (Replacement.latestFirst replacements).foldlM Edited.apply
    ⟨source.toList, byteLength source.toList⟩
  return String.ofList edited.text

theorem foldlM_apply_eq_ok (h : Grounded text) (todo : List Replacement) :
    todo.foldlM Edited.apply (.ofEditing text)
      = .ok (.ofEditing (todo.foldl Editing.apply text)) := by
  induction todo generalizing text with
  | nil => rfl
  | cons r todo ih => rw [List.foldlM_cons, Edited.apply_eq_ok h, ok_bind, ih (h.apply r)]; rfl

/-- Splicing succeeds. -/
theorem splice_eq_ok (source : String) (replacements : List Replacement) :
    splice source replacements = .ok (Relocation.splice source replacements) := by
  have hGrounded : Grounded (Editing.start source.toList) := Nat.le_refl _
  have hStart : (⟨source.toList, byteLength source.toList⟩ : Edited)
      = .ofEditing (Editing.start source.toList) := by
    simp [Edited.ofEditing, Editing.start, Editing.chars]
  rw [splice, hStart, foldlM_apply_eq_ok hGrounded, ok_bind]
  rfl

end Relocation.Checked

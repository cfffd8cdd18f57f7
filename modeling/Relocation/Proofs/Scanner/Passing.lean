import Relocation.Proofs.Text.Cuts
import Relocation.TypeScript.Scanner

/-!
# The scanner moves on

Whatever the scanner reads, it comes to a place further on in the same text: what it leaves is the
end of what it was given, and the offset has grown by the length of what it passed. So an offset
of the scanner is always a cut of the text.

## Results

* `Passes.trans`: passing on;
* `passes_skipGap`, `passes_readWord`, `passes_readNumber` and their like: one fact for each reader.
-/

namespace Relocation.TypeScript

open Text

/-- The second text is the end of the first one, and the offset has grown by the length of what
lies between. -/
def Goes (cs : List Char) (offset : Nat) (rest : List Char) (offset' : Nat) : Prop :=
  ∃ passed, cs = passed ++ rest ∧ offset' = offset + byteLength passed

/-- The second place lies further on in the same text. -/
def Passes (place place' : Place) : Prop :=
  Goes place.rest place.offset place'.rest place'.offset

theorem goes_refl (cs : List Char) (offset : Nat) : Goes cs offset cs offset := ⟨[], rfl, rfl⟩

theorem Goes.trans {cs₁ cs₂ cs₃ : List Char} {n₁ n₂ n₃ : Nat} (h : Goes cs₁ n₁ cs₂ n₂)
    (h' : Goes cs₂ n₂ cs₃ n₃) : Goes cs₁ n₁ cs₃ n₃ := by
  obtain ⟨a, rfl, rfl⟩ := h
  obtain ⟨b, rfl, rfl⟩ := h'
  exact ⟨a ++ b, by rw [List.append_assoc], by rw [byteLength_append, Nat.add_assoc]⟩

theorem Goes.le {cs rest : List Char} {n n' : Nat} (h : Goes cs n rest n') : n ≤ n' := by
  obtain ⟨passed, -, rfl⟩ := h
  exact Nat.le_add_right _ _

/-- Over one character. -/
theorem goes_cons (c : Char) (cs : List Char) (offset : Nat) :
    Goes (c :: cs) offset cs (offset + c.utf8Size) := ⟨[c], rfl, by simp⟩

/-- Over a character of one byte. -/
theorem goes_one {c : Char} (cs : List Char) (offset : Nat) (h : c.utf8Size = 1) :
    Goes (c :: cs) offset cs (offset + 1) := h ▸ goes_cons c cs offset

theorem Passes.refl (place : Place) : Passes place place := goes_refl _ _

theorem Passes.trans {p₁ p₂ p₃ : Place} (h : Passes p₁ p₂) (h' : Passes p₂ p₃) : Passes p₁ p₃ :=
  Goes.trans h h'

theorem passes_behind {place : Place} {consumed rest : List Char}
    (h : place.rest = consumed ++ rest) : Passes place (place.behind consumed rest) :=
  ⟨consumed, h, rfl⟩

-- ---------------------------------------------------------------------------
-- Gaps
-- ---------------------------------------------------------------------------

theorem goes_skipLine (cs : List Char) (offset : Nat) :
    Goes cs offset (skipLine cs offset).1 (skipLine cs offset).2 := by
  induction cs generalizing offset with
  | nil => exact goes_refl _ _
  | cons c cs ih =>
    unfold skipLine
    split
    · exact goes_refl _ _
    · exact (goes_cons c cs offset).trans (ih _)

theorem goes_skipBlock (cs : List Char) (offset : Nat) (broke : Bool) :
    Goes cs offset (skipBlock cs offset broke).rest (skipBlock cs offset broke).offset := by
  fun_induction skipBlock cs offset broke with
  | case1 => exact goes_refl _ _
  | case2 offset broke cs => exact ⟨['*', '/'], rfl, rfl⟩
  | case3 c cs offset broke _ ih => exact (goes_cons c cs offset).trans ih

theorem passes_skipGapWithin (fuel : Nat) (place : Place) :
    Passes place (skipGapWithin fuel place) := by
  induction fuel generalizing place with
  | zero => exact .refl place
  | succ fuel ih =>
    unfold skipGapWithin
    split
    · rename_i cs hRest
      have hOpen : Goes place.rest place.offset cs (place.offset + 2) := ⟨['/', '/'], hRest, rfl⟩
      have hLine := hOpen.trans (goes_skipLine cs _)
      exact hLine.trans (ih ⟨_, _, place.afterLineBreak⟩)
    · rename_i cs hRest
      have hOpen : Goes place.rest place.offset cs (place.offset + 2) := ⟨['/', '*'], hRest, rfl⟩
      exact (hOpen.trans (goes_skipBlock cs _ _)).trans (ih _)
    · rename_i c cs _ _ hRest
      split
      · have hStep : Passes place (place.advance c cs) := ⟨[c], hRest, by simp [Place.advance]⟩
        exact hStep.trans (ih _)
      · exact .refl place
    · exact .refl place

theorem passes_skipGap (place : Place) : Passes place (skipGap place) :=
  passes_skipGapWithin _ place

theorem passes_passOver (place : Place) : Passes place (passOver place) :=
  (goes_skipLine place.rest place.offset).trans
    (passes_skipGap ⟨_, _, place.afterLineBreak⟩)

-- ---------------------------------------------------------------------------
-- Words
-- ---------------------------------------------------------------------------

theorem passes_readSpelling (fuel : Nat) (word : Spelling) (place : Place) :
    Passes place (readSpelling fuel word place).2 := by
  induction fuel generalizing word place with
  | zero => exact .refl place
  | succ fuel ih =>
    unfold readSpelling
    split
    · exact .refl place
    · rename_i rest hRest
      have hText : (Escape.unicode rest).text = 'u' :: rest := Escape.text_unicode rest
      split
      · rename_i consumed value rest' hEscape
        rw [hEscape, Escape.text] at hText
        have hBehind : Passes place (place.behind ('\\' :: consumed) rest') :=
          passes_behind (by rw [hRest, List.cons_append, hText])
        exact hBehind.trans (ih _ _)
      · rename_i consumed rest' hEscape
        rw [hEscape, Escape.text] at hText
        exact passes_behind (by rw [hRest, List.cons_append, hText])
    · rename_i rest _ hRest
      exact passes_behind hRest
    · rename_i c rest _ _ hRest
      split
      · have hBehind : Passes place (place.behind [c] rest) := passes_behind hRest
        exact hBehind.trans (ih _ _)
      · exact .refl place

theorem passes_readWord (place : Place) : Passes place (readWord place).2 := by
  have hSpelling := passes_readSpelling place.rest.length ⟨[], false, none⟩ place
  unfold readWord
  split
  rename_i word behind hRead
  rw [hRead] at hSpelling
  split
  · exact hSpelling
  · dsimp only
    split <;> exact hSpelling

-- ---------------------------------------------------------------------------
-- Numbers
-- ---------------------------------------------------------------------------

/-- Digits take one byte. -/
theorem utf8Size_of_digit {base : Nat} {c : Char} (h : (digitValue? base c).isSome = true) :
    c.utf8Size = 1 := by
  have hBound : c ≤ '9' ∨ c ≤ 'f' ∨ c ≤ 'F' := by
    unfold digitValue? at h
    split at h
    · rename_i hDigit
      exact .inl hDigit.2
    · split at h
      · rename_i hLower
        exact .inr (.inl hLower.2)
      · split at h
        · rename_i hUpper
          exact .inr (.inr hUpper.2)
        · simp at h
  have hNine : '9'.val = 57 := rfl
  have hLower : 'f'.val = 102 := rfl
  have hUpper : 'F'.val = 70 := rfl
  rw [Char.utf8Size_eq_one_iff, UInt32.le_iff_toNat_le]
  simp only [Char.le_def, UInt32.le_iff_toNat_le, hNine, hLower, hUpper] at hBound
  simp only [UInt32.reduceToNat] at hBound ⊢
  omega

theorem goes_skipDigits (base : Nat) (cs : List Char) (offset : Nat) (found : Bool) :
    Goes cs offset (skipDigits base cs offset found).2.1 (skipDigits base cs offset found).2.2 := by
  induction cs generalizing offset found with
  | nil => exact goes_refl _ _
  | cons c cs ih =>
    unfold skipDigits
    split
    · rename_i hLow
      exact (goes_one cs offset (by rw [hLow]; decide)).trans (ih _ _)
    · split
      · rename_i hDigit
        exact (goes_one cs offset (utf8Size_of_digit hDigit)).trans (ih _ _)
      · exact goes_refl _ _

namespace Place

theorem passes_endNumber (place : Place) : Passes place place.endNumber.2 := by
  unfold endNumber
  split
  · split <;> exact .refl place
  · exact .refl place

theorem passes_expectDigits {place : Place} {base : Nat} {next : Place → Token × Place}
    (h : ∀ place, Passes place (next place).2) : Passes place (place.expectDigits base next).2 := by
  have hDigits := goes_skipDigits base place.rest place.offset false
  unfold expectDigits
  split
  · rename_i rest offset hSkip
    rw [hSkip] at hDigits
    have hBehind : Passes place (place.moved rest offset) := hDigits
    exact hBehind.trans (h _)
  · rename_i rest offset hSkip
    rw [hSkip] at hDigits
    exact hDigits

theorem passes_readExponent (place : Place) : Passes place place.readExponent.2 := by
  have hDigits : ∀ (passed : List Char) {rest : List Char} {n : Nat}, place.rest = passed ++ rest →
      byteLength passed = n →
      Passes place ((place.moved rest (place.offset + n)).expectDigits 10 endNumber).2 := by
    rintro passed rest _ hRest rfl
    have hBehind : Passes place (place.moved rest _) := ⟨passed, hRest, rfl⟩
    exact hBehind.trans (passes_expectDigits passes_endNumber)
  unfold readExponent
  split
  · rename_i cs hRest
    split
    · exact ⟨['e'], hRest, rfl⟩
    · exact hDigits ['e', '+'] hRest rfl
    · exact hDigits ['e', '-'] hRest rfl
    · exact hDigits ['e'] hRest rfl
  · rename_i cs hRest
    split
    · exact ⟨['E'], hRest, rfl⟩
    · exact hDigits ['E', '+'] hRest rfl
    · exact hDigits ['E', '-'] hRest rfl
    · exact hDigits ['E'] hRest rfl
  · exact passes_endNumber place

theorem passes_readFraction (place : Place) : Passes place place.readFraction.2 := by
  unfold readFraction
  split
  · rename_i cs hRest
    have hPoint : Goes place.rest place.offset cs (place.offset + 1) := ⟨['.'], hRest, rfl⟩
    exact Passes.trans (hPoint.trans (goes_skipDigits 10 cs _ false)) (passes_readExponent _)
  · exact passes_readExponent place

theorem passes_readInBase {place : Place} {base : Nat} {cs : List Char} (passed : List Char)
    (hRest : place.rest = passed ++ cs) (hLength : byteLength passed = 2) :
    Passes place (place.readInBase base cs).2 := by
  have hBehind : Passes place (place.moved cs (place.offset + 2)) :=
    ⟨passed, hRest, by rw [hLength]; rfl⟩
  refine hBehind.trans (passes_expectDigits fun behind => ?_)
  split
  · rename_i cs hRest
    exact ⟨['n'], hRest, rfl⟩
  · exact passes_endNumber behind

theorem passes_readDecimal (place : Place) : Passes place place.readDecimal.2 := by
  have hDigits := goes_skipDigits 10 place.rest place.offset false
  unfold readDecimal
  split
  rename_i found rest offset hSkip
  rw [hSkip] at hDigits
  have hBehind : Passes place (place.moved rest offset) := hDigits
  dsimp only
  split
  · exact hBehind.trans (passes_endNumber _)
  · split
    · split
      · exact hBehind.trans (passes_readFraction _)
      · exact hBehind.trans ⟨['n'], rfl, rfl⟩
    · exact hBehind.trans (passes_readFraction _)

end Place

theorem passes_readNumber (place : Place) : Passes place place.readNumber.2 := by
  unfold Place.readNumber
  split
  · exact Place.passes_readInBase ['0', 'x'] (by assumption) rfl
  · exact Place.passes_readInBase ['0', 'X'] (by assumption) rfl
  · exact Place.passes_readInBase ['0', 'o'] (by assumption) rfl
  · exact Place.passes_readInBase ['0', 'O'] (by assumption) rfl
  · exact Place.passes_readInBase ['0', 'b'] (by assumption) rfl
  · exact Place.passes_readInBase ['0', 'B'] (by assumption) rfl
  · exact Place.passes_readFraction place
  · exact Place.passes_readDecimal place

end Relocation.TypeScript

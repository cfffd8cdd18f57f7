/-!
# The order of words

Lists are ordered like words in a dictionary: by the first element in which they differ, and a
front part comes before the whole. The order of the elements is given.

## Results

* `wordLe_total`, `wordLe_trans`, `wordLe_antisymm`: a total order of the elements gives a total
  order of the lists.
-/

namespace Relocation.Text

variable {α : Type} [DecidableEq α]

/-- Whether the first list comes before the second one or is the same. -/
def wordLe (le : α → α → Bool) : List α → List α → Bool
  | [], _ => true
  | _ :: _, [] => false
  | a :: as, b :: bs => if a = b then wordLe le as bs else le a b

variable {le : α → α → Bool} {a b : α} {as bs cs : List α}

/-- Words that start alike are compared behind their start. -/
theorem wordLe_cons_self (le : α → α → Bool) (a : α) (as bs : List α) :
    wordLe le (a :: as) (a :: bs) = wordLe le as bs := if_pos rfl

/-- Words that do not start alike are compared by their start. -/
theorem wordLe_cons_of_ne (h : a ≠ b) (as bs : List α) :
    wordLe le (a :: as) (b :: bs) = le a b := if_neg h

/-- Of two lists one comes before the other or is the same. -/
theorem wordLe_total (total : ∀ a b, le a b = true ∨ le b a = true) (as bs : List α) :
    wordLe le as bs = true ∨ wordLe le bs as = true := by
  induction as generalizing bs with
  | nil => exact Or.inl rfl
  | cons a as ih =>
    cases bs with
    | nil => exact Or.inr rfl
    | cons b bs =>
      by_cases h : a = b
      · subst h
        rw [wordLe_cons_self, wordLe_cons_self]
        exact ih bs
      · rw [wordLe_cons_of_ne h, wordLe_cons_of_ne (Ne.symm h)]
        exact total a b

/-- Two lists that come before each other are the same. -/
theorem wordLe_antisymm (antisymm : ∀ a b, le a b = true → le b a = true → a = b)
    (hab : wordLe le as bs = true) (hba : wordLe le bs as = true) : as = bs := by
  induction as generalizing bs with
  | nil =>
    cases bs with
    | nil => rfl
    | cons b bs => exact absurd hba Bool.false_ne_true
  | cons a as ih =>
    cases bs with
    | nil => exact absurd hab Bool.false_ne_true
    | cons b bs =>
      by_cases h : a = b
      · subst h
        rw [wordLe_cons_self] at hab hba
        rw [ih hab hba]
      · rw [wordLe_cons_of_ne h] at hab
        rw [wordLe_cons_of_ne (Ne.symm h)] at hba
        exact absurd (antisymm a b hab hba) h

/-- A list that comes before a second one comes before all that the second one comes before. -/
theorem wordLe_trans (antisymm : ∀ a b, le a b = true → le b a = true → a = b)
    (trans : ∀ a b c, le a b = true → le b c = true → le a c = true)
    (hab : wordLe le as bs = true) (hbc : wordLe le bs cs = true) : wordLe le as cs = true := by
  induction as generalizing bs cs with
  | nil => rfl
  | cons a as ih =>
    cases bs with
    | nil => exact absurd hab Bool.false_ne_true
    | cons b bs =>
      cases cs with
      | nil => exact absurd hbc Bool.false_ne_true
      | cons c cs =>
        by_cases hHere : a = b
        · subst hHere
          rw [wordLe_cons_self] at hab
          by_cases hNext : a = c
          · subst hNext
            rw [wordLe_cons_self] at hbc ⊢
            exact ih hab hbc
          · rw [wordLe_cons_of_ne hNext] at hbc ⊢
            exact hbc
        · rw [wordLe_cons_of_ne hHere] at hab
          by_cases hNext : b = c
          · subst hNext
            rw [wordLe_cons_of_ne hHere]
            exact hab
          · rw [wordLe_cons_of_ne hNext] at hbc
            by_cases hBoth : a = c
            · subst hBoth
              exact absurd (antisymm a b hab hbc) hHere
            · rw [wordLe_cons_of_ne hBoth]
              exact trans a b c hab hbc

end Relocation.Text

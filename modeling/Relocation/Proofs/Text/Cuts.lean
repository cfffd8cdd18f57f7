import Mathlib.Data.List.Basic
import Mathlib.Data.List.TakeWhile
import Relocation.Text.Basic

/-!
# Cuts of a text

Two cuts of one text at the same offset are the same cut. So an offset that falls between two
characters stands for the part before it, and what is known of the parts can be carried over from
one way of taking the text apart to another.

## Results

* `append_inj_of_byteLength`: parts of the same length are the same parts;
* `eq_append_of_le`: of two cuts the earlier one cuts the front part of the later one;
* `cut_cases`: a cut lies before a character or behind it;
* `dropWhile_ne_cases`: a text goes on with the character that it was read up to, if it goes on;
* `CharAt.of_append`: a character of two texts in a row stands in one of them;
* `WordAt.head`: a word stands where its first character stands;
* `lineOf_append`: the line of a cut counts the line feeds in front of it.
-/

namespace Relocation.Text

-- ---------------------------------------------------------------------------
-- Cuts are unique
-- ---------------------------------------------------------------------------

/-- Front parts of the same length are the same, and so are the rests. -/
theorem append_inj_of_byteLength {a b a' b' : List Char} (h : a ++ b = a' ++ b')
    (hLength : byteLength a = byteLength a') : a = a' ∧ b = b' := by
  have hCut : cutAt? (a' ++ b') (byteLength a) = some (a, b) := by rw [← h, cutAt?_append]
  rw [hLength, cutAt?_append] at hCut
  obtain ⟨rfl, rfl⟩ := Prod.mk.inj (Option.some.inj hCut)
  exact ⟨rfl, rfl⟩

/-- A text has at least as many bytes as characters. -/
theorem length_le_byteLength (cs : List Char) : cs.length ≤ byteLength cs := by
  induction cs with
  | nil => exact Nat.le_refl 0
  | cons c cs ih =>
    have := Char.utf8Size_pos c
    simp only [List.length_cons, byteLength_cons]
    omega

theorem eq_nil_of_byteLength_eq_zero {cs : List Char} (h : byteLength cs = 0) : cs = [] := by
  cases cs with
  | nil => rfl
  | cons c cs =>
    have := Char.utf8Size_pos c
    simp only [byteLength_cons] at h
    omega

/-- If a front part is no longer than another one, it is the front of that one. -/
theorem eq_append_of_le {a b a' b' : List Char} (h : a ++ b = a' ++ b')
    (hLength : byteLength a ≤ byteLength a') : ∃ c, a' = a ++ c ∧ b = c ++ b' := by
  rcases List.append_eq_append_iff.1 h with ⟨c, rfl, rfl⟩ | ⟨c, rfl, rfl⟩
  · exact ⟨c, rfl, rfl⟩
  · rw [byteLength_append] at hLength
    have hNil : c = [] := eq_nil_of_byteLength_eq_zero (by omega)
    subst hNil
    exact ⟨[], by simp, by simp⟩

/-- Of two cuts of one text, the first lies before a character behind the second, or else behind
that character. -/
theorem cut_cases {a b front behind : List Char} {c : Char} (h : a ++ b = front ++ c :: behind) :
    (∃ more, front = a ++ more ∧ b = more ++ c :: behind) ∨
      ∃ more, a = front ++ c :: more ∧ behind = more ++ b := by
  rcases List.append_eq_append_iff.1 h with ⟨more, hFront, hb⟩ | ⟨more, ha, hBehind⟩
  · exact .inl ⟨more, hFront, hb⟩
  · cases more with
    | nil => exact .inl ⟨[], by simpa using ha.symm, by simpa using hBehind.symm⟩
    | cons d more =>
      obtain ⟨rfl, rfl⟩ := List.cons.inj hBehind
      exact .inr ⟨more, ha, rfl⟩

/-- A text that is cut behind a front part and a character of it has both. -/
theorem eq_append_cons_of_lt {a b front behind : List Char} {c : Char}
    (h : a ++ b = front ++ c :: behind) (hLength : byteLength front < byteLength a) :
    ∃ more, a = front ++ c :: more ∧ behind = more ++ b := by
  rcases cut_cases h with ⟨more, rfl, -⟩ | hThrough
  · rw [byteLength_append] at hLength
    omega
  · exact hThrough

/-- A character that a front part does not hold stands behind it. -/
theorem eq_append_of_notMem {a b front behind : List Char} {c : Char}
    (h : a ++ b = front ++ c :: behind) (hNot : c ∉ a) :
    ∃ more, front = a ++ more ∧ b = more ++ c :: behind := by
  rcases cut_cases h with hBehind | ⟨more, rfl, -⟩
  · exact hBehind
  · exact absurd (by simp) hNot

/-- An offset falls between two characters if and only if a front part of the text is as long. -/
theorem isBoundary_iff {cs : List Char} {n : Nat} :
    isBoundary cs n = true ↔ ∃ a b, cs = a ++ b ∧ byteLength a = n := by
  rw [isBoundary, Option.isSome_iff_exists]
  constructor
  · rintro ⟨⟨a, b⟩, hCut⟩
    exact ⟨a, b, cutAt?_eq_some_iff.1 hCut⟩
  · rintro ⟨a, b, hParts⟩
    exact ⟨(a, b), cutAt?_eq_some_iff.2 hParts⟩

/-- The part of the text before an offset. -/
def before (cs : List Char) (offset : Nat) : List Char :=
  ((cutAt? cs offset).map Prod.fst).getD cs

@[simp] theorem before_append (a b : List Char) : before (a ++ b) (byteLength a) = a := by
  simp [before, cutAt?_append]

-- ---------------------------------------------------------------------------
-- Up to a character
-- ---------------------------------------------------------------------------

theorem notMem_takeWhile_ne (stop : Char) (cs : List Char) : stop ∉ cs.takeWhile (· != stop) :=
  fun hMem => bne_iff_ne.1 (List.mem_takeWhile_imp (p := (· != stop)) hMem) rfl

/-- What is left of a text that is read up to a character starts with it. If nothing is left, the
character does not stand in the text. -/
theorem dropWhile_ne_cases (stop : Char) (cs : List Char) :
    cs.dropWhile (· != stop) = [] ∧ stop ∉ cs ∨
      ∃ rest, cs.dropWhile (· != stop) = stop :: rest := by
  induction cs with
  | nil => exact .inl ⟨rfl, List.not_mem_nil⟩
  | cons c cs ih =>
    by_cases hStop : c = stop
    · subst hStop
      exact .inr ⟨cs, List.dropWhile_cons_of_neg (by simp)⟩
    · rw [List.dropWhile_cons_of_pos (by simpa using hStop), List.mem_cons, not_or]
      exact ih.imp (fun h => ⟨h.1, Ne.symm hStop, h.2⟩) id

-- ---------------------------------------------------------------------------
-- Characters at an offset
-- ---------------------------------------------------------------------------

/-- The character stands in the text at the offset. -/
def CharAt (cs : List Char) (offset : Nat) (c : Char) : Prop :=
  ∃ a b, cs = a ++ c :: b ∧ byteLength a = offset

namespace CharAt

variable {a b cs : List Char} {n : Nat} {c d : Char}

theorem unique (h : CharAt cs n c) (h' : CharAt cs n d) : c = d := by
  obtain ⟨front, behind, rfl, rfl⟩ := h
  obtain ⟨front', behind', hText, hLength⟩ := h'
  obtain ⟨-, hBehind⟩ := append_inj_of_byteLength hText hLength.symm
  exact (List.cons.inj hBehind).1

theorem mem (h : CharAt cs n c) : c ∈ cs := by
  obtain ⟨front, behind, rfl, -⟩ := h
  simp

theorem lt (h : CharAt cs n c) : n < byteLength cs := by
  obtain ⟨front, behind, rfl, rfl⟩ := h
  have := Char.utf8Size_pos c
  simp only [byteLength_append, byteLength_cons]
  omega

theorem append_right (h : CharAt a n c) (b : List Char) : CharAt (a ++ b) n c := by
  obtain ⟨front, behind, rfl, rfl⟩ := h
  exact ⟨front, behind ++ b, by simp, rfl⟩

theorem append_left (a : List Char) (h : CharAt b n c) : CharAt (a ++ b) (byteLength a + n) c := by
  obtain ⟨front, behind, rfl, rfl⟩ := h
  exact ⟨a ++ front, behind, by simp, by simp⟩

/-- A character of two texts in a row stands in one of them. -/
theorem of_append (h : CharAt (a ++ b) n c) :
    CharAt a n c ∨ ∃ m, n = byteLength a + m ∧ CharAt b m c := by
  obtain ⟨front, behind, hText, rfl⟩ := h
  rcases cut_cases hText with ⟨more, rfl, rfl⟩ | ⟨more, rfl, -⟩
  · exact .inr ⟨byteLength more, by simp, more, behind, rfl, rfl⟩
  · exact .inl ⟨front, more, rfl, rfl⟩

/-- What stands behind a front part is the first character of the rest. -/
theorem append_iff_head? : CharAt (a ++ b) (byteLength a) c ↔ b.head? = some c := by
  constructor
  · rintro ⟨front, behind, hText, hLength⟩
    obtain ⟨-, rfl⟩ := append_inj_of_byteLength hText hLength.symm
    rfl
  · intro hHead
    obtain ⟨behind, rfl⟩ := List.head?_eq_some_iff.1 hHead
    exact ⟨a, behind, rfl, rfl⟩

/-- The text can be cut on both sides of a character. -/
theorem isBoundary (h : CharAt cs n c) :
    isBoundary cs n = true ∧ isBoundary cs (n + c.utf8Size) = true := by
  obtain ⟨front, behind, rfl, rfl⟩ := h
  exact ⟨isBoundary_iff.2 ⟨front, c :: behind, rfl, rfl⟩,
    isBoundary_iff.2 ⟨front ++ [c], behind, by simp, by simp⟩⟩

end CharAt

-- ---------------------------------------------------------------------------
-- Words at an offset
-- ---------------------------------------------------------------------------

/-- The word stands in the text at the offset. -/
def WordAt (cs : List Char) (offset : Nat) (word : List Char) : Prop :=
  ∃ a b, cs = a ++ (word ++ b) ∧ byteLength a = offset

/-- A word stands where its first character stands. -/
theorem WordAt.head {cs word : List Char} {offset : Nat} {c : Char}
    (h : WordAt cs offset (c :: word)) : CharAt cs offset c := by
  obtain ⟨front, behind, hText, hFront⟩ := h
  exact ⟨front, word ++ behind, hText, hFront⟩

-- ---------------------------------------------------------------------------
-- Lines
-- ---------------------------------------------------------------------------

theorem lineFeedsBefore_append (a b : List Char) :
    lineFeedsBefore (a ++ b) (byteLength a) = a.count '\n' := by
  induction a with
  | nil => cases b <;> rfl
  | cons c cs ih =>
    have hPos := Char.utf8Size_pos c
    obtain ⟨n, hn⟩ : ∃ n, byteLength (c :: cs) = n + 1 :=
      ⟨byteLength (c :: cs) - 1, by simp only [byteLength_cons]; omega⟩
    have hRest : n + 1 - c.utf8Size = byteLength cs := by
      simp only [byteLength_cons] at hn; omega
    rw [hn, List.cons_append, lineFeedsBefore, hRest, ih, List.count_cons]
    by_cases hc : c = '\n' <;> simp [hc, Nat.add_comm]

/-- The line of a cut is one more than the line feeds in front of it. -/
theorem lineOf_append (a b : List Char) : lineOf (a ++ b) (byteLength a) = a.count '\n' + 1 := by
  rw [lineOf, lineFeedsBefore_append]

end Relocation.Text

import Mathlib.Data.List.Infix
import Relocation.Proofs.Text.Cuts

/-!
# Searches in a text

A search takes a text apart around a place of a word. What it finds can be told without it: the
first place is the one that no other lies in front of, the last place the one that no other lies
behind, and a search fails if the word stands nowhere.

## Results

* `splitAtFirst?_eq_some_iff`, `splitAtFirst?_eq_none_iff`: the search for the first place;
* `splitAtLast?_eq_some_iff`, `splitAtLast?_eq_none_iff`: the search for the last place;
* `splitAtFirst?_singleton_iff`: in front of its first place a character does not stand.
-/

namespace Relocation.Text

variable {c : Char} {word cs a b : List Char} {n : Nat}

-- ---------------------------------------------------------------------------
-- Places of a word
-- ---------------------------------------------------------------------------

theorem wordAt_parts (a word b : List Char) : WordAt (a ++ word ++ b) (byteLength a) word :=
  ⟨a, b, List.append_assoc .., rfl⟩

/-- A word stands in the front part if it ends there. -/
theorem WordAt.of_append (h : WordAt (a ++ b) n word) (hLe : n + byteLength word ≤ byteLength a) :
    WordAt a n word := by
  obtain ⟨front, behind, hText, rfl⟩ := h
  rw [← List.append_assoc] at hText
  obtain ⟨rest, rfl, -⟩ := eq_append_of_le hText.symm (by rwa [byteLength_append])
  exact ⟨front, rest, List.append_assoc .., rfl⟩

theorem WordAt.append_right (h : WordAt a n word) (b : List Char) : WordAt (a ++ b) n word := by
  obtain ⟨front, behind, rfl, rfl⟩ := h
  exact ⟨front, behind ++ b, by simp only [List.append_assoc], rfl⟩

theorem wordAt_nil_iff : WordAt [] n word ↔ n = 0 ∧ word = [] := by
  constructor
  · rintro ⟨front, behind, hText, rfl⟩
    obtain ⟨rfl, hRest⟩ := List.append_eq_nil_iff.1 hText.symm
    exact ⟨rfl, (List.append_eq_nil_iff.1 hRest).1⟩
  · rintro ⟨rfl, rfl⟩
    exact ⟨[], [], rfl, rfl⟩

/-- A word stands at the start of the text, or in the text behind its first character. -/
theorem wordAt_cons_iff :
    WordAt (c :: cs) n word ↔
      n = 0 ∧ word <+: c :: cs ∨ ∃ m, n = c.utf8Size + m ∧ WordAt cs m word := by
  constructor
  · rintro ⟨front, behind, hText, rfl⟩
    cases front with
    | nil => exact .inl ⟨rfl, behind, hText.symm⟩
    | cons d front =>
      obtain ⟨rfl, hRest⟩ := List.cons.inj hText
      exact .inr ⟨byteLength front, rfl, front, behind, hRest, rfl⟩
  · rintro (⟨rfl, behind, hText⟩ | ⟨m, rfl, front, behind, rfl, rfl⟩)
    · exact ⟨[], behind, hText.symm, rfl⟩
    · exact ⟨c :: front, behind, rfl, rfl⟩

/-- A word stands nowhere if it is neither at the start nor behind the first character. -/
theorem forall_not_wordAt_cons_iff :
    (∀ n, ¬WordAt (c :: cs) n word) ↔ ¬word <+: c :: cs ∧ ∀ n, ¬WordAt cs n word := by
  constructor
  · intro hNot
    exact ⟨fun hHere => hNot 0 (wordAt_cons_iff.2 (.inl ⟨rfl, hHere⟩)),
      fun n hRest => hNot _ (wordAt_cons_iff.2 (.inr ⟨n, rfl, hRest⟩))⟩
  · rintro ⟨hHere, hRest⟩ n hAt
    rcases wordAt_cons_iff.1 hAt with ⟨-, hFront⟩ | ⟨m, -, hBehind⟩
    · exact hHere hFront
    · exact hRest m hBehind

theorem wordAt_singleton_iff : WordAt cs n [c] ↔ CharAt cs n c := Iff.rfl

theorem exists_charAt_of_mem (h : c ∈ cs) : ∃ n, CharAt cs n c := by
  obtain ⟨front, behind, rfl⟩ := List.append_of_mem h
  exact ⟨byteLength front, front, behind, rfl, rfl⟩

/-- Two ways of taking a text apart around a word are the same if they do so at the same place. -/
theorem parts_inj {a' b' : List Char} (h : a ++ word ++ b = a' ++ word ++ b')
    (hLength : byteLength a = byteLength a') : (a', b') = (a, b) := by
  rw [List.append_assoc, List.append_assoc] at h
  obtain ⟨rfl, hRest⟩ := append_inj_of_byteLength h hLength
  rw [List.append_cancel_left hRest]

theorem isPrefixOf?_eq_none_iff : word.isPrefixOf? cs = none ↔ ¬word <+: cs := by
  rw [Option.eq_none_iff_forall_ne_some]
  simp only [ne_eq, List.isPrefixOf?_eq_some_iff_append_eq, List.IsPrefix, not_exists]

-- ---------------------------------------------------------------------------
-- The first place
-- ---------------------------------------------------------------------------

theorem splitAtFirst?_eq_none_iff : splitAtFirst? word cs = none ↔ ∀ n, ¬WordAt cs n word := by
  induction cs with
  | nil => simp [splitAtFirst?, wordAt_nil_iff]
  | cons c cs ih =>
    rw [splitAtFirst?, forall_not_wordAt_cons_iff, ← isPrefixOf?_eq_none_iff, ← ih]
    cases word.isPrefixOf? (c :: cs) <;> simp

/-- No place lies in front of the one that is found. -/
theorem le_of_splitAtFirst? (h : splitAtFirst? word cs = some (a, b)) (hAt : WordAt cs n word) :
    byteLength a ≤ n := by
  induction cs generalizing a n with
  | nil =>
    rw [splitAtFirst?] at h
    split at h
    · obtain ⟨rfl, -⟩ := Prod.mk.inj (Option.some.inj h)
      exact Nat.zero_le n
    · contradiction
  | cons c cs ih =>
    rw [splitAtFirst?] at h
    split at h
    · obtain ⟨rfl, -⟩ := Prod.mk.inj (Option.some.inj h)
      exact Nat.zero_le n
    · rename_i hFront
      obtain ⟨⟨a', b'⟩, hSplit, hParts⟩ := Option.map_eq_some_iff.1 h
      obtain ⟨rfl, rfl⟩ := Prod.mk.inj hParts
      rcases wordAt_cons_iff.1 hAt with ⟨-, hHere⟩ | ⟨m, rfl, hRest⟩
      · exact absurd hHere (isPrefixOf?_eq_none_iff.1 hFront)
      · exact Nat.add_le_add_left (ih hSplit hRest) _

/-- The first place is the one that no other lies in front of. -/
theorem splitAtFirst?_eq_some_iff :
    splitAtFirst? word cs = some (a, b) ↔
      cs = a ++ word ++ b ∧ ∀ n, WordAt cs n word → byteLength a ≤ n := by
  constructor
  · exact fun h => ⟨eq_append_of_splitAtFirst? h, fun n => le_of_splitAtFirst? h⟩
  · rintro ⟨hParts, hFirst⟩
    have hThere : WordAt cs (byteLength a) word := hParts ▸ wordAt_parts a word b
    cases hSplit : splitAtFirst? word cs with
    | none => exact absurd hThere (splitAtFirst?_eq_none_iff.1 hSplit _)
    | some parts =>
      have hParts' := eq_append_of_splitAtFirst? hSplit
      have hLength : byteLength a = byteLength parts.1 :=
        Nat.le_antisymm (hFirst _ (hParts' ▸ wordAt_parts ..)) (le_of_splitAtFirst? hSplit hThere)
      rw [← parts_inj (hParts.symm.trans hParts') hLength]

/-- In front of its first place a character does not stand. -/
theorem splitAtFirst?_singleton_iff :
    splitAtFirst? [c] cs = some (a, b) ↔ cs = a ++ c :: b ∧ c ∉ a := by
  rw [splitAtFirst?_eq_some_iff, List.append_assoc, List.singleton_append]
  refine and_congr_right ?_
  rintro rfl
  constructor
  · intro hFirst hMem
    obtain ⟨n, hChar⟩ := exists_charAt_of_mem hMem
    have hLe := hFirst n (wordAt_singleton_iff.2 (hChar.append_right _))
    have hLt := hChar.lt
    omega
  · intro hNot n hAt
    rcases (wordAt_singleton_iff.1 hAt).of_append with hFront | ⟨m, rfl, -⟩
    · exact absurd hFront.mem hNot
    · exact Nat.le_add_right _ _

theorem not_mem_of_splitAtFirst?_eq_none (h : splitAtFirst? [c] cs = none) : c ∉ cs := by
  intro hMem
  obtain ⟨n, hChar⟩ := exists_charAt_of_mem hMem
  exact splitAtFirst?_eq_none_iff.1 h n hChar

-- ---------------------------------------------------------------------------
-- The last place
-- ---------------------------------------------------------------------------

theorem splitAtLast?_eq_none_iff : splitAtLast? word cs = none ↔ ∀ n, ¬WordAt cs n word := by
  induction cs with
  | nil => simp [splitAtLast?, wordAt_nil_iff]
  | cons c cs ih =>
    rw [splitAtLast?, forall_not_wordAt_cons_iff, ← isPrefixOf?_eq_none_iff, ← ih]
    cases splitAtLast? word cs <;> simp

/-- No place lies behind the one that is found. -/
theorem le_of_splitAtLast? (h : splitAtLast? word cs = some (a, b)) (hAt : WordAt cs n word) :
    n ≤ byteLength a := by
  induction cs generalizing a n with
  | nil =>
    obtain ⟨rfl, -⟩ := wordAt_nil_iff.1 hAt
    exact Nat.zero_le _
  | cons c cs ih =>
    rw [splitAtLast?] at h
    rcases wordAt_cons_iff.1 hAt with ⟨rfl, -⟩ | ⟨m, rfl, hRest⟩
    · exact Nat.zero_le _
    · split at h
      · rename_i parts hSplit
        obtain ⟨rfl, rfl⟩ := Prod.mk.inj (Option.some.inj h)
        exact Nat.add_le_add_left (ih hSplit hRest) _
      · rename_i hNone
        exact absurd hRest (splitAtLast?_eq_none_iff.1 hNone m)

/-- The last place is the one that no other lies behind. -/
theorem splitAtLast?_eq_some_iff :
    splitAtLast? word cs = some (a, b) ↔
      cs = a ++ word ++ b ∧ ∀ n, WordAt cs n word → n ≤ byteLength a := by
  constructor
  · exact fun h => ⟨eq_append_of_splitAtLast? h, fun n => le_of_splitAtLast? h⟩
  · rintro ⟨hParts, hLast⟩
    have hThere : WordAt cs (byteLength a) word := hParts ▸ wordAt_parts a word b
    cases hSplit : splitAtLast? word cs with
    | none => exact absurd hThere (splitAtLast?_eq_none_iff.1 hSplit _)
    | some parts =>
      have hParts' := eq_append_of_splitAtLast? hSplit
      have hLength : byteLength a = byteLength parts.1 :=
        Nat.le_antisymm (le_of_splitAtLast? hSplit hThere) (hLast _ (hParts' ▸ wordAt_parts ..))
      rw [← parts_inj (hParts.symm.trans hParts') hLength]

theorem not_mem_of_splitAtLast?_eq_none (h : splitAtLast? [c] cs = none) : c ∉ cs := by
  intro hMem
  obtain ⟨n, hChar⟩ := exists_charAt_of_mem hMem
  exact splitAtLast?_eq_none_iff.1 h n hChar

/-- Behind its last place a character does not stand. -/
theorem not_mem_of_splitAtLast? (h : splitAtLast? [c] cs = some (a, b)) : c ∉ b := by
  intro hMem
  obtain ⟨n, hChar⟩ := exists_charAt_of_mem hMem
  have hAt : CharAt cs (byteLength (a ++ [c]) + n) c :=
    eq_append_of_splitAtLast? h ▸ hChar.append_left (a ++ [c])
  have hLe := le_of_splitAtLast? h (wordAt_singleton_iff.2 hAt)
  have hPos := Char.utf8Size_pos c
  rw [byteLength_append, byteLength_cons] at hLe
  omega

end Relocation.Text

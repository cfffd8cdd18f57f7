import Relocation.Proofs.Scanner.Tokens

/-!
# How lexemes stand in the text

A scanner that stands at a cut of the text stays at one, and the lexemes that it reads lie one
behind the other. A regular expression takes it back to the slash that starts it, and on from
there.

## Results

* `Scanner.next_spec`: one step of the scanner;
* `Scanner.rereadPattern_spec`: a regular expression in place of a slash.
-/

namespace Relocation.TypeScript

open Text

variable {text : List Char}

/-- What follows a cut of the text. -/
def Follows (text rest : List Char) (offset : Nat) : Prop := Goes text 0 rest offset

/-- A string token in the text, from `start` to `stop`. -/
def StringAt (text : List Char) (start stop : Nat) (value : String) : Prop :=
  ∃ rest length, Follows text rest start ∧ StringToken rest length value ∧ stop = start + length

theorem StringAt.stop_le {start stop : Nat} {value : String}
    (h : StringAt text start stop value) : stop ≤ byteLength text := by
  obtain ⟨rest, length, ⟨front, rfl, hStart⟩, hToken, rfl⟩ := h
  have := hToken.length_le
  rw [byteLength_append]
  omega

theorem StringAt.start_lt {start stop : Nat} {value : String}
    (h : StringAt text start stop value) : start < stop := by
  obtain ⟨rest, length, -, hToken, rfl⟩ := h
  have := hToken.length_pos
  omega

/-- A lexeme whose text is as its token demands. -/
structure Stands (text : List Char) (lexeme : Lexeme) : Prop where
  string : ∀ value, lexeme.token = .str value → StringAt text lexeme.start lexeme.stop value
  slash : lexeme.token.isSlash = true → ∃ rest, Follows text rest lexeme.start ∧ StartsThin rest

theorem stands_of_isFree {lexeme : Lexeme} (h : lexeme.token.isFree = true) :
    Stands text lexeme := by
  refine ⟨fun value hValue => ?_, fun hSlash => ?_⟩
  · rw [hValue] at h
    contradiction
  · unfold Token.isFree at h
    split at h
    · contradiction
    · rw [hSlash] at h
      contradiction

namespace Scanner

/-- The scanner stands at a cut of the text. -/
def AtCut (text : List Char) (s : Scanner) : Prop := Follows text s.rest s.offset

theorem atCut_start (dialect : Dialect) (text : List Char) : AtCut text (start dialect text) :=
  goes_refl text 0

theorem passes_nextPlace (s : Scanner) :
    Goes s.rest s.offset s.nextPlace.rest s.nextPlace.offset := by
  unfold nextPlace
  dsimp only
  split
  · exact goes_refl _ _
  · exact passes_skipGap ⟨s.rest, s.offset, s.atStart⟩

/-- **One step of the scanner.** The scanner moves on, and a lexeme that it reads lies on its
way: it starts where the scanner stood or behind, it ends where the scanner stands afterwards or
before, and a string among the lexemes stands in the text with its quotes and its value.

`h` says that the scanner stands at a cut of the text, which is all that it needs to go on. The
manner is what the grammar asks for and may be any. -/
theorem next_spec {s : Scanner} (manner : Manner) (h : s.AtCut text) :
    (s.next manner).2.AtCut text ∧ s.offset ≤ (s.next manner).2.offset ∧
      ∀ lexeme ∈ (s.next manner).1,
        Stands text lexeme ∧ s.offset ≤ lexeme.start ∧ lexeme.stop ≤ (s.next manner).2.offset := by
  unfold next
  split
  · rename_i cs _ hRest
    have hOpen : Goes s.rest s.offset cs (s.offset + 2) := ⟨['#', '!'], hRest, rfl⟩
    have hLine := hOpen.trans (goes_skipLine cs _)
    refine ⟨h.trans hLine, hLine.le, ?_⟩
    rintro _ ⟨⟩
    exact ⟨stands_of_isFree rfl, Nat.le_refl _, Nat.le_refl _⟩
  · have hPlace := passes_nextPlace s
    dsimp only
    split
    · exact ⟨h.trans hPlace, hPlace.le, by simp⟩
    · rename_i token place' hRead
      have hFound : ReadAs s.nextPlace (token, place') := readAs_readAt hRead
      have hBehind := hPlace.trans hFound.passes
      refine ⟨h.trans hBehind, hBehind.le, ?_⟩
      rintro _ ⟨⟩
      refine ⟨⟨fun value hValue => ?_, fun hSlash => ?_⟩, hPlace.le, Nat.le_refl _⟩
      · obtain ⟨length, hString, hOffset⟩ := hFound.string value hValue
        exact ⟨s.nextPlace.rest, length, h.trans hPlace, hString, hOffset⟩
      · exact ⟨s.nextPlace.rest, h.trans hPlace, hFound.slash hSlash⟩

-- ---------------------------------------------------------------------------
-- Regular expressions
-- ---------------------------------------------------------------------------

theorem passes_skipPattern (escaped inBrackets : Bool) (place : Place) :
    Passes place (skipPattern escaped inBrackets place).1 := by
  fun_induction skipPattern escaped inBrackets place with
  | case1 => exact .refl _
  | case2 _ _ _ _ _ _ _ ih => exact Goes.trans (goes_cons _ _ _) ih
  | case3 => exact goes_cons _ _ _
  | case4 _ _ _ _ _ _ _ _ _ _ _ ih => exact Goes.trans (goes_cons _ _ _) ih
  | case5 => exact .refl _

/-- A regular expression is read from its slash on. -/
theorem rereadPattern_spec {s : Scanner} {slash : Lexeme}
    (hSlash : ∃ rest, Follows text rest slash.start ∧ StartsThin rest) :
    (s.rereadPattern text slash).2.AtCut text ∧
      slash.start ≤ (s.rereadPattern text slash).2.offset ∧
      (s.rereadPattern text slash).1.token.isFree = true := by
  obtain ⟨rest, hFollows, c, cs, rfl, hThin⟩ := hSlash
  obtain ⟨front, hText, hFront⟩ := hFollows
  have hCut : cutAt? text slash.start = some (front, c :: cs) :=
    cutAt?_eq_some_iff.2 ⟨hText, by omega⟩
  have hOpened : ((cutAt? text slash.start).map Prod.snd).getD [] = c :: cs := by rw [hCut]; rfl
  unfold rereadPattern
  dsimp only
  rw [hOpened, List.drop_one, List.tail_cons]
  have hStart : Follows text cs (slash.start + 1) :=
    Goes.trans ⟨front, hText, hFront⟩ (goes_one cs slash.start hThin)
  have hPattern := passes_skipPattern false false
    ((⟨c :: cs, slash.start, slash.afterLineBreak⟩ : Place).behind ['/'] cs)
  split
  · rename_i behind hSkip
    rw [hSkip] at hPattern
    have hLe := hPattern.le
    exact ⟨hStart.trans hPattern, Nat.le_trans (Nat.le_add_right _ 1) hLe, rfl⟩
  · rename_i behind hSkip
    rw [hSkip] at hPattern
    have hLe := hPattern.le
    split
    · have hFlags := passes_readSpelling behind.rest.length ⟨[], false, none⟩ behind
      split
      all_goals
        rename_i hRead
        rw [hRead] at hFlags
        have hLe' := hFlags.le
        exact ⟨hStart.trans (hPattern.trans hFlags),
          Nat.le_trans (Nat.le_add_right _ 1) (Nat.le_trans hLe hLe'), rfl⟩
    · exact ⟨hStart.trans hPattern, Nat.le_trans (Nat.le_add_right _ 1) hLe, rfl⟩

end Scanner

end Relocation.TypeScript

import Relocation.Proofs.Grammar.Keeping

/-!
# Ways to put readers together

Trials, repetitions and changes of the surroundings keep what is ahead if the readers in them do:
where a trial fails, the state before it comes back, and what was ahead of that is ahead again. The
primitives that tell the scanner something leave its place alone.

## Results

* instances of `Keeps` for the ways to put readers together;
* `keeps_current_bind`: a reader that depends on the lexeme in hand may use what is known of it;
* `ahead_rereadPattern_bind`: reading on behind a slash in hand that has been read once more.
-/

namespace Relocation.TypeScript.Grammar

open Text

variable {text : List Char} {lo : Nat} {α β : Type}

-- ---------------------------------------------------------------------------
-- Control
-- ---------------------------------------------------------------------------

instance keeps_modes : Keeps text lo modes := by
  unfold modes
  infer_instance

/-- The surroundings of the grammar play no part. -/
theorem Ahead.of_modes {s : State} (h : Ahead text lo s) (modes : Modes) :
    Ahead text lo { s with modes := modes } :=
  ⟨h.text_eq, h.atCut, h.offset, h.current, h.following, h.ordered⟩

theorem Keeps.within {change : Modes → Modes} {reader : Parse α} (hReader : Keeps text lo reader) :
    Keeps text lo (within change reader) := by
  refine ⟨fun s h => ?_⟩
  unfold Grammar.within
  have hChanged := h.of_modes (change s.modes)
  split
  · rename_i hRun
    exact (hReader.ok hChanged hRun).of_modes _
  · rename_i hRun
    exact (hReader.error hChanged hRun).of_modes _

instance keeps_within {change : Modes → Modes} {reader : Parse α} [hReader : Keeps text lo reader] :
    Keeps text lo (within change reader) := hReader.within

theorem Keeps.trial {reader : Parse (Option α)} (hReader : Keeps text lo reader) :
    Keeps text lo (trial reader) := by
  refine ⟨fun s h => ?_⟩
  unfold Grammar.trial
  split
  · rename_i hRun
    exact hReader.ok h hRun
  · exact h
  · exact h

instance keeps_trial {reader : Parse (Option α)} [hReader : Keeps text lo reader] :
    Keeps text lo (trial reader) := hReader.trial

theorem Keeps.trialBool {reader : Parse Bool} (hReader : Keeps text lo reader) :
    Keeps text lo (trialBool reader) := by
  unfold Grammar.trialBool
  infer_instance

instance keeps_trialBool {reader : Parse Bool} [hReader : Keeps text lo reader] :
    Keeps text lo (trialBool reader) := hReader.trialBool

instance keeps_lookAhead {reader : Parse Bool} : Keeps text lo (lookAhead reader) := by
  refine ⟨fun s h => ?_⟩
  unfold lookAhead
  split <;> exact h

instance keeps_orElse {reader : Parse α} {handler : Nat → Parse α}
    [hReader : Keeps text lo reader] [hHandler : ∀ e, Keeps text lo (handler e)] :
    Keeps text lo (orElse reader handler) := by
  refine ⟨fun s h => ?_⟩
  unfold orElse
  split
  · rename_i hRun
    exact hReader.ok h hRun
  · rename_i hRun
    exact (hHandler _).keeps _ (hReader.error h hRun)

instance keeps_repeatWithin {reader : Parse Bool} [Keeps text lo reader] (bound : Nat) :
    Keeps text lo (repeatWithin reader bound) := by
  induction bound with
  | zero =>
    unfold repeatWithin
    infer_instance
  | succ bound ih =>
    unfold repeatWithin
    infer_instance

theorem Keeps.whileYes {reader : Parse Bool} (hReader : Keeps text lo reader) :
    Keeps text lo (whileYes reader) := by
  unfold Grammar.whileYes
  infer_instance

instance keeps_whileYes {reader : Parse Bool} [hReader : Keeps text lo reader] :
    Keeps text lo (whileYes reader) := hReader.whileYes

instance keeps_collectWithin {reader : Parse (Option α)} [Keeps text lo reader] (bound : Nat) :
    Keeps text lo (collectWithin reader bound) := by
  induction bound with
  | zero =>
    unfold collectWithin
    infer_instance
  | succ bound ih =>
    unfold collectWithin
    refine .bind inferInstance fun a? => ?_
    cases a? <;> dsimp only <;> infer_instance

theorem Keeps.collect {reader : Parse (Option α)} (hReader : Keeps text lo reader) :
    Keeps text lo (collect reader) := by
  unfold Grammar.collect
  infer_instance

instance keeps_collect {reader : Parse (Option α)} [hReader : Keeps text lo reader] :
    Keeps text lo (collect reader) := hReader.collect

-- ---------------------------------------------------------------------------
-- The scanner's view
-- ---------------------------------------------------------------------------

/-- The surroundings of the scanner play no part. -/
theorem Ahead.of_surroundings {s : State} (h : Ahead text lo s) (surroundings : Surroundings) :
    Ahead text lo { s with scanner := { s.scanner with surroundings := surroundings } } :=
  ⟨h.text_eq, h.atCut, h.offset, h.current, h.following, h.ordered⟩

instance keeps_forbidOperand : Keeps text lo forbidOperand :=
  keeps_modify fun _ h => h.of_surroundings _

instance keeps_setOpen (opened : List Nesting) : Keeps text lo (setOpen opened) :=
  keeps_modify fun _ h => h.of_surroundings _

instance keeps_outsideNesting {reader : Parse α} [Keeps text lo reader] :
    Keeps text lo (outsideNesting reader) := by
  refine ⟨fun s h => ?_⟩
  have hRestore : ∀ (opened : List Nesting) (last : Parse α) [Keeps text lo last],
      Keeps text lo (setOpen opened >>= fun _ => last) := fun _ _ _ => inferInstance
  unfold outsideNesting
  dsimp only
  split
  · rename_i hRun
    exact (hRestore _ (pure _)).keeps _ (Keeps.ok h hRun)
  · rename_i hRun
    exact (hRestore _ (throw _)).keeps _ (Keeps.error h hRun)

instance keeps_forgetTag : Keeps text lo forgetTag := by
  unfold forgetTag
  refine .bind inferInstance fun s => ?_
  split <;> infer_instance

/-- A token that the text lacks is put in hand: not a string, and no slash either. -/
theorem keeps_supply {token : Token} (h : token.isFree = true) : Keeps text lo (supply token) :=
  keeps_modify fun s hAhead =>
    ⟨hAhead.text_eq, hAhead.atCut, hAhead.offset, by rintro _ ⟨⟩; exact awaits_of_isFree h,
      hAhead.following, by rintro _ ⟨⟩ _ _ hFree; rw [h] at hFree; contradiction⟩

instance keeps_splitAngle : Keeps text lo splitAngle := by
  refine keeps_modify fun s h => ?_
  split
  · refine ⟨h.text_eq, h.atCut, h.offset, ?_, h.following, ?_⟩
    · rintro _ ⟨⟩
      exact awaits_of_isFree rfl
    · rintro _ ⟨⟩ _ _ hFree
      contradiction
  · exact h

-- ---------------------------------------------------------------------------
-- Regular expressions
-- ---------------------------------------------------------------------------

/-- A reader that depends on the lexeme in hand may use that it is in hand. -/
theorem keeps_current_bind {next : Option Lexeme → Parse β}
    (h : ∀ lexeme? s, Ahead text lo s → s.current = lexeme? →
      Ahead text lo (endState (next lexeme? s))) :
    Keeps text lo (current? >>= next) := by
  refine ⟨fun s hAhead => ?_⟩
  obtain ⟨lexeme?, s', hRun, hHand⟩ := current?_spec s
  have hEnd := h lexeme? s' (Keeps.ok hAhead hRun) hHand
  simpa only [bind, EStateM.bind, hRun] using hEnd

theorem advance_of_some {s : State} {lexeme : Lexeme} (h : s.current = some lexeme) :
    advance s = .ok ()
      { s with current := none, previousStart := lexeme.start, previousStop := lexeme.stop } := by
  simp only [advance, bind, EStateM.bind, current?_of_some h]
  rfl

theorem rereadPattern_of_some {s : State} {slash : Lexeme} (h : s.current = some slash) :
    rereadPattern s = .ok ()
      { s with
        scanner := (s.scanner.rereadPattern s.text slash).2
        current := some (s.scanner.rereadPattern s.text slash).1
        following := none
        previousStart := slash.start
        previousStop := slash.stop } := by
  simp only [rereadPattern, bind, EStateM.bind, current?_of_some h, advance_of_some h]
  rfl

/-- A slash in hand is read once more, as the start of a regular expression. -/
theorem ahead_rereadPattern {s : State} {slash : Lexeme} (h : Ahead text lo s)
    (hHand : s.current = some slash) (hSlash : slash.token.isSlash = true) :
    Ahead text lo (endState (rereadPattern s)) := by
  have hFree : slash.token.isFree = false := by
    unfold Token.isFree
    split
    · rfl
    · rw [hSlash]
      rfl
  have hAwaits := h.current slash hHand
  obtain ⟨hCut, hOffset, hToken⟩ :=
    Scanner.rereadPattern_spec (s := s.scanner) (hAwaits.stands.slash hSlash)
  rw [rereadPattern_of_some hHand, endState_ok]
  rw [← h.text_eq] at hCut hOffset hToken
  refine ⟨h.text_eq, h.text_eq ▸ hCut, Nat.le_trans (hAwaits.start hFree) hOffset, ?_, by simp,
    by simp⟩
  rintro _ ⟨⟩
  exact awaits_of_isFree hToken

/-- Reading on behind a slash in hand, once it has been read as a regular expression. -/
theorem ahead_rereadPattern_bind {s : State} {slash : Lexeme} {next : Unit → Parse β}
    (h : Ahead text lo s) (hHand : s.current = some slash) (hSlash : slash.token.isSlash = true)
    (hNext : ∀ a, Keeps text lo (next a)) :
    Ahead text lo (endState ((rereadPattern >>= next) s)) := by
  have hReread := ahead_rereadPattern h hHand hSlash
  have hRun := rereadPattern_of_some hHand
  simp only [bind, EStateM.bind, hRun] at hReread ⊢
  exact (hNext ()).keeps _ hReread

end Relocation.TypeScript.Grammar

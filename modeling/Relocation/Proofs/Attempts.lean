import Relocation.Proofs.Blanked

/-!
# The attempts of the recovery

Recovery is a run of attempts: the text in hand is parsed, and if that fails a stretch of it is
blanked for the next attempt. `attempt?` is the state in which an attempt finds the text, for as
many attempts as the parser forces. The recovery succeeds with the first attempt that parses, if
there is one among those that it makes. So what is to be shown of every attempt, or of the last one,
is shown of the first one and kept by each blanking.

## Results

* `attempt?_induction`: what the start has and every step keeps holds at every attempt;
* `recover?_eq_some_iff`: recovery ends with an attempt that parses;
* `attempt?_accounted`: at every attempt the text is the source, with each blank accounted for;
* `attempt?_blanks`: a later attempt has the text of an earlier one with more blanks;
* `BlankingAfter.of_mem_calls`: every call that is noted comes from a blanking that was made.
-/

namespace Relocation

open Text

variable {Tree : Type} {parse : List Char → Except Nat Tree} {source : List Char}
  {working next : Working} {n m : Nat}

-- ---------------------------------------------------------------------------
-- Attempts
-- ---------------------------------------------------------------------------

/-- The text in hand at the attempt with the given number, if it comes to that attempt. -/
def attempt? (parse : List Char → Except Nat Tree) (source : List Char) : Nat → Option Working
  | 0 => some ⟨source, []⟩
  | n + 1 =>
    match attempt? parse source n with
    | none => none
    | some working =>
      match parse working.text with
      | .ok _ => none
      | .error fault => working.step? fault

/-- The blanking that is made when the attempt fails. -/
def BlankingAfter (parse : List Char → Except Nat Tree) (source : List Char) (n : Nat)
    (blanking : Blanking) : Prop :=
  ∃ working fault, attempt? parse source n = some working ∧ parse working.text = .error fault ∧
    blankingFor? working.text (min fault (byteLength working.text)) = some blanking

/-- The next attempt is made behind a failure for which something can be blanked. -/
theorem attempt?_succ_iff :
    attempt? parse source (n + 1) = some next ↔
      ∃ working fault, attempt? parse source n = some working ∧
        parse working.text = .error fault ∧ working.step? fault = some next := by
  rw [attempt?]
  cases attempt? parse source n with
  | none => simp
  | some working => cases hParse : parse working.text <;> simp [hParse]

/-- What the start has and every step keeps holds at every attempt. -/
theorem attempt?_induction {motive : Working → Prop} (hStart : motive ⟨source, []⟩)
    (hStep : ∀ working fault next, motive working → working.step? fault = some next → motive next)
    (h : attempt? parse source n = some working) : motive working := by
  induction n generalizing working with
  | zero =>
    obtain rfl := Option.some.inj h
    exact hStart
  | succ n ih =>
    obtain ⟨earlier, fault, hEarlier, -, hNext⟩ := attempt?_succ_iff.1 h
    exact hStep earlier fault working (ih hEarlier) hNext

/-- At every attempt the text is the source, with each blank accounted for: it was blanked with a
clause behind a word `import` or with a whole line. The parser decides where faults are reported,
and nothing is asked of it. -/
theorem attempt?_accounted (h : attempt? parse source n = some working) :
    Accounted source working.text :=
  attempt?_induction (motive := fun working => Accounted source working.text)
    (accounted_refl source) (fun _ _ _ hWorking hStep => hWorking.step hStep) h

-- ---------------------------------------------------------------------------
-- Earlier and later attempts
-- ---------------------------------------------------------------------------

/-- An attempt that is not made is followed by none. -/
theorem attempt?_add_eq_none (h : attempt? parse source n = none) (m : Nat) :
    attempt? parse source (n + m) = none := by
  induction m with
  | zero => exact h
  | succ m ih => rw [← Nat.add_assoc, attempt?, ih]

/-- From an attempt to a later one the way leads over the next one. -/
theorem attempt?_add_cases {last : Working} (h : attempt? parse source n = some working)
    (hLast : attempt? parse source (n + m) = some last) :
    m = 0 ∧ last = working ∨ ∃ k fault next, m = k + 1 ∧ parse working.text = .error fault ∧
      working.step? fault = some next ∧ attempt? parse source (n + 1) = some next ∧
      attempt? parse source (n + 1 + k) = some last := by
  cases m with
  | zero => exact .inl ⟨rfl, Option.some.inj (hLast.symm.trans h)⟩
  | succ k =>
    right
    rw [Nat.add_comm k 1, ← Nat.add_assoc] at hLast
    cases hNext : attempt? parse source (n + 1) with
    | none =>
      rw [attempt?_add_eq_none hNext] at hLast
      contradiction
    | some next =>
      obtain ⟨earlier, fault, hEarlier, hFault, hStep⟩ := attempt?_succ_iff.1 hNext
      obtain rfl : working = earlier := Option.some.inj (h.symm.trans hEarlier)
      exact ⟨k, fault, next, rfl, hFault, hStep, rfl, hLast⟩

theorem Working.step?_blanks {fault : Nat} (h : working.step? fault = some next) :
    Blanks working.text next.text := by
  obtain ⟨kept, stretch, back, hText, hNext, -⟩ := Working.step?_spec h
  rw [hText, hNext]
  exact .append (.refl kept) (.append (.blanked_self stretch) (.refl back))

/-- A later attempt has the text of an earlier one with more blanks. -/
theorem attempt?_blanks {later : Working} (h : attempt? parse source n = some working)
    (hLater : attempt? parse source (n + m) = some later) : Blanks working.text later.text := by
  induction m generalizing later with
  | zero =>
    obtain rfl : working = later := Option.some.inj (h.symm.trans hLater)
    exact .refl _
  | succ m ih =>
    obtain ⟨earlier, fault, hEarlier, -, hStep⟩ := attempt?_succ_iff.1 hLater
    exact (ih hEarlier).trans (Working.step?_blanks hStep)

/-- Every call that is noted comes from a blanking that was made. -/
theorem BlankingAfter.of_mem_calls {call : Nat} (h : attempt? parse source n = some working)
    (hCall : call ∈ working.calls) :
    ∃ m blanking, m < n ∧ BlankingAfter parse source m blanking ∧ blanking.call = some call := by
  induction n generalizing working with
  | zero =>
    obtain rfl := Option.some.inj h
    simp at hCall
  | succ n ih =>
    obtain ⟨earlier, fault, hEarlier, hFault, hStep⟩ := attempt?_succ_iff.1 h
    obtain ⟨blanking, hBlanking, rfl⟩ := Option.map_eq_some_iff.1 hStep
    rcases List.mem_append.1 hCall with hBefore | hHere
    · obtain ⟨m, blanking, hm, hMade, hLeads⟩ := ih hEarlier hBefore
      exact ⟨m, blanking, by omega, hMade, hLeads⟩
    · exact ⟨n, blanking, by omega, ⟨earlier, fault, hEarlier, hFault, hBlanking⟩,
        by simpa using hHere⟩

-- ---------------------------------------------------------------------------
-- The end of the recovery
-- ---------------------------------------------------------------------------

/-- From an attempt on, parsing ends with a later one that parses. -/
theorem recoverWithin_eq_some_iff {blankings : Nat} {recovered : Recovered Tree}
    (h : attempt? parse source n = some working) :
    recoverWithin parse blankings working = some recovered ↔
      ∃ m ≤ blankings, attempt? parse source (n + m) = some recovered.working ∧
        parse recovered.working.text = .ok recovered.tree := by
  induction blankings generalizing n working with
  -- the text in hand parses now or not at all
  | zero =>
    unfold recoverWithin
    constructor
    · intro hRun
      split at hRun
      · rename_i tree hParse
        obtain rfl := Option.some.inj hRun
        exact ⟨0, Nat.le_refl 0, h, hParse⟩
      · contradiction
    · rintro ⟨m, hm, hLast, hParse⟩
      obtain ⟨-, hSame⟩ | ⟨k, -, -, rfl, -⟩ := attempt?_add_cases h hLast
      · rw [← hSame, hParse]
      · omega
  | succ blankings ih =>
    unfold recoverWithin
    constructor
    · intro hRun
      split at hRun
      · rename_i tree hParse
        obtain rfl := Option.some.inj hRun
        exact ⟨0, Nat.zero_le _, h, hParse⟩
      -- it does not parse: with what is blanked for its fault comes the next attempt
      · rename_i fault hFault
        dsimp only at hRun
        split at hRun
        · rename_i next hStep
          have hNext := attempt?_succ_iff.2 ⟨working, fault, h, hFault, hStep⟩
          obtain ⟨m, hm, hLast, hParse⟩ := (ih hNext).1 hRun
          exact ⟨m + 1, by omega, by rwa [Nat.add_comm m 1, ← Nat.add_assoc], hParse⟩
        · contradiction
    · rintro ⟨m, hm, hLast, hParse⟩
      -- the attempt that parses is the one in hand, or one from the next on
      obtain ⟨-, hSame⟩ | ⟨k, fault, next, rfl, hFault, hStep, hNext, hRest⟩ :=
        attempt?_add_cases h hLast
      · rw [← hSame, hParse]
      · rw [hFault]
        simp only [hStep]
        exact (ih hNext).2 ⟨k, by omega, hRest, hParse⟩

/-- The recovery ends with an attempt that parses, if it makes one. -/
theorem recover?_eq_some_iff {recovered : Recovered Tree} :
    recover? parse source = some recovered ↔
      ∃ n ≤ blankingLimit, attempt? parse source n = some recovered.working ∧
        parse recovered.working.text = .ok recovered.tree := by
  have hStart : attempt? parse source 0 = some ⟨source, []⟩ := rfl
  rw [recover?, recoverWithin_eq_some_iff hStart]
  simp only [Nat.zero_add]

end Relocation

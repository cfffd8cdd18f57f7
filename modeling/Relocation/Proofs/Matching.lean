import Relocation.Glob
import Relocation.Proofs.Braces
import Relocation.Proofs.Plan

/-!
# What a glob matches

A glob matches what one of its alternatives matches. Where a glob starts with plain characters, so
does each of its alternatives, and these characters are read as themselves: what the glob matches
starts with them too.

## Results

* `Glob.isMatch_iff`: a glob matches if one of its alternatives does;
* `Glob.readTokens_append`, `Glob.exists_of_matchesFrom`: plain characters stand for themselves;
* `Glob.Matches.starts`: what a glob matches starts with the plain characters in front of it.
-/

namespace Relocation

open Text

namespace Glob

variable {c : Char} {cs front more text pattern : List Char} {tokens : List Token} {glob : Glob}
  {fresh : Bool} {position : Nat}

/-- One of the alternatives of the pattern matches the text. -/
def Matches (pattern text : List Char) : Prop :=
  ∃ alternative ∈ alternatives pattern, ∃ tokens, tokensOf alternative = .ok tokens ∧
    matchesText tokens text = true

-- ---------------------------------------------------------------------------
-- Alternatives of a glob
-- ---------------------------------------------------------------------------

theorem mem_mapM_iff {α β Error : Type} {f : α → Except Error β} {list : List α}
    {results : List β} (h : list.mapM f = .ok results) {b : β} :
    b ∈ results ↔ ∃ a ∈ list, f a = .ok b := by
  induction list generalizing results with
  | nil =>
    obtain rfl := Except.ok.inj h
    simp
  | cons a list ih =>
    rw [List.mapM_cons] at h
    obtain ⟨first, hFirst, hRest⟩ := bind_eq_ok_iff.1 h
    obtain ⟨others, hOthers, hResults⟩ := bind_eq_ok_iff.1 hRest
    obtain rfl := Except.ok.inj hResults
    rw [List.mem_cons, ih hOthers]
    simp [hFirst, eq_comm]

theorem exists_mapM_iff {α β Error : Type} {f : α → Except Error β} {list : List α} :
    (∃ results, list.mapM f = .ok results) ↔ ∀ a ∈ list, ∃ b, f a = .ok b := by
  induction list with
  | nil => exact ⟨fun _ a hMem => absurd hMem List.not_mem_nil, fun _ => ⟨[], rfl⟩⟩
  | cons first list ih =>
    rw [List.forall_mem_cons, ← ih]
    simp only [List.mapM_cons, bind_eq_ok_iff]
    constructor
    · rintro ⟨_, here, hHere, others, hOthers, -⟩
      exact ⟨⟨here, hHere⟩, others, hOthers⟩
    · rintro ⟨⟨here, hHere⟩, others, hOthers⟩
      exact ⟨here :: others, here, hHere, others, hOthers, rfl⟩

theorem mapM_congr_left {α β Error : Type} {f g : α → Except Error β} {list : List α}
    (h : ∀ a ∈ list, f a = g a) : list.mapM f = list.mapM g := by
  induction list with
  | nil => rfl
  | cons a list ih =>
    rw [List.mapM_cons, List.mapM_cons, h a List.mem_cons_self,
      ih fun b hMem => h b (List.mem_cons_of_mem _ hMem)]

theorem mapM_of_ofText (h : ofText pattern = .ok glob) :
    (alternatives pattern).mapM tokensOf = .ok glob.patterns := by
  rw [ofText] at h
  cases hPatterns : (alternatives pattern).mapM tokensOf with
  | error fault =>
    rw [hPatterns] at h
    contradiction
  | ok patterns =>
    rw [hPatterns] at h
    rw [← Except.ok.inj h]

/-- An alternative of a glob can be read if the glob can. -/
theorem exists_ofText_of_mem (h : ofText pattern = .ok glob) {alternative : List Char}
    (hMem : alternative ∈ alternatives pattern) : ∃ single, ofText alternative = .ok single := by
  obtain ⟨tokens, hTokens⟩ := exists_mapM_iff.1 ⟨_, mapM_of_ofText h⟩ alternative hMem
  refine ⟨⟨[tokens]⟩, ?_⟩
  rw [ofText, alternatives_of_mem hMem, List.mapM_cons, hTokens]
  rfl

/-- A glob matches what its alternatives match. -/
theorem matches_iff_exists_mem :
    Matches pattern text ↔ ∃ alternative ∈ alternatives pattern, Matches alternative text := by
  unfold Matches
  refine exists_congr fun alternative => and_congr_right fun hMem => ?_
  rw [alternatives_of_mem hMem]
  simp

/-- A glob matches if one of its alternatives does. -/
theorem isMatch_iff (h : ofText pattern = .ok glob) :
    glob.isMatch text = true ↔ Matches pattern text := by
  rw [isMatch, List.any_eq_true]
  constructor
  · rintro ⟨tokens, hMem, hMatch⟩
    obtain ⟨alternative, hAlternative, hTokens⟩ := (mem_mapM_iff (mapM_of_ofText h)).1 hMem
    exact ⟨alternative, hAlternative, tokens, hTokens, hMatch⟩
  · rintro ⟨alternative, hAlternative, tokens, hTokens, hMatch⟩
    exact ⟨tokens, (mem_mapM_iff (mapM_of_ofText h)).2 ⟨alternative, hAlternative, hTokens⟩, hMatch⟩

-- ---------------------------------------------------------------------------
-- Plain characters
-- ---------------------------------------------------------------------------

/-- A plain character is read as itself. -/
theorem readTokens_cons (h : isMagic c = false) (position : Nat) (fresh : Bool)
    (cs : List Char) :
    readTokens position fresh (c :: cs)
      = (.literal c :: ·) <$> readTokens (position + 1) (c == '/') cs := by
  have hPlain : c ≠ '*' ∧ c ≠ '?' ∧ c ≠ '[' := by
    simp only [isMagic, Bool.or_eq_false_iff, beq_eq_false_iff_ne] at h
    exact ⟨h.1.1.1, h.1.1.2, h.1.2⟩
  rw [readTokens.eq_def]
  split
  · rename_i hNil
    exact absurd hNil (List.cons_ne_nil c cs)
  · rename_i hCons
    exact absurd (List.cons.inj hCons).1 hPlain.2.1
  · rename_i hCons
    exact absurd (List.cons.inj hCons).1 hPlain.1
  · rename_i hCons
    exact absurd (List.cons.inj hCons).1 hPlain.1
  · rename_i hCons
    exact absurd (List.cons.inj hCons).1 hPlain.1
  · rename_i hCons
    exact absurd (List.cons.inj hCons).1 hPlain.2.2
  · rename_i hCons
    obtain ⟨rfl, rfl⟩ := List.cons.inj hCons
    rfl

/-- Plain characters are read as themselves. -/
theorem readTokens_append (h : hasMagic front = false)
    (hTokens : readTokens position fresh (front ++ more) = .ok tokens) :
    ∃ others, tokens = front.map .literal ++ others := by
  induction front generalizing position fresh tokens with
  | nil => exact ⟨tokens, rfl⟩
  | cons c front ih =>
    obtain ⟨hHere, hRest⟩ := Bool.or_eq_false_iff.1 h
    rw [List.cons_append, readTokens_cons hHere] at hTokens
    cases hOthers : readTokens (position + 1) (c == '/') (front ++ more) with
    | error fault =>
      rw [hOthers] at hTokens
      contradiction
    | ok others =>
      rw [hOthers] at hTokens
      obtain rfl := Except.ok.inj hTokens
      obtain ⟨behind, rfl⟩ := ih hRest hOthers
      exact ⟨behind, rfl⟩

/-- Plain characters match themselves. -/
theorem exists_of_matchesFrom (h : matchesFrom fresh (front.map .literal ++ tokens) text = true) :
    ∃ rest, text = front ++ rest := by
  induction front generalizing fresh text with
  | nil => exact ⟨text, rfl⟩
  | cons c front ih =>
    cases text with
    | nil => simp [matchesFrom] at h
    | cons d text =>
      rw [List.map_cons, List.cons_append, matchesFrom, Bool.and_eq_true, beq_iff_eq] at h
      obtain ⟨rfl, hRest⟩ := h
      obtain ⟨rest, rfl⟩ := ih hRest
      exact ⟨rest, rfl⟩

-- ---------------------------------------------------------------------------
-- Plain characters in front
-- ---------------------------------------------------------------------------

theorem eachClosed_of_notMem (h : '\x7b' ∉ cs) : EachClosed cs := by
  rintro before behind rfl
  exact absurd (List.mem_append_right _ List.mem_cons_self) h

theorem firstGroup?_of_notMem (h : '\x7b' ∉ cs) : firstGroup? cs = none := by
  induction cs with
  | nil => rfl
  | cons c cs ih =>
    obtain ⟨hHere, hRest⟩ := not_or.1 (mt List.mem_cons.2 h)
    rw [firstGroup?, if_neg (Ne.symm hHere), ih hRest]
    rfl

theorem brace_notMem_of_plain (h : hasMagic front = false) : '\x7b' ∉ front := by
  intro hMem
  have hBrace := List.any_eq_false.1 h _ hMem
  exact hBrace rfl

/-- The alternatives behind plain characters are those of what is behind. -/
theorem alternatives_of_plain (h : hasMagic front = false) (more : List Char) :
    alternatives (front ++ more) = (alternatives more).map (front ++ ·) :=
  alternatives_append_of_none (eachClosed_of_notMem (brace_notMem_of_plain h))
    (firstGroup?_of_notMem (brace_notMem_of_plain h)) more

/-- What a glob matches starts with the plain characters in front of it. -/
theorem Matches.starts (hFront : hasMagic front = false) (h : Matches (front ++ more) text) :
    ∃ rest, text = front ++ rest := by
  obtain ⟨alternative, hAlternative, tokens, hTokens, hMatch⟩ := h
  rw [alternatives_of_plain hFront] at hAlternative
  obtain ⟨behind, -, rfl⟩ := List.mem_map.1 hAlternative
  obtain ⟨others, rfl⟩ := readTokens_append hFront hTokens
  exact exists_of_matchesFrom hMatch

end Glob

end Relocation

import Relocation.Proofs.Plan
import Relocation.Proofs.WholeSegments

/-!
# Patterns inside a segment

A pattern without slashes is read into tokens that stay inside one segment of what they match,
unless it is two stars. Behind whole segments such tokens are matched by the last name alone: a name
in between would have a slash behind it. Only if they can stand for nothing at all, they can also be
matched where the text ends. But then they start with a star, and a star stands for any last name
that does not start with a dot.

## Results

* `readTokens_position`: where a pattern starts makes no difference to what it is read as;
* `staysInside_or_of_readTokens`: without slashes tokens stay inside a segment;
* `slash_notMem_of_matchesFrom`: then they match nothing with a slash;
* `matchesFrom_anySegments_names`: behind whole segments the last name is matched.
-/

namespace Relocation.Glob

open Text

variable {cs after text last : List Char} {front : List (List Char)} {token : Token}
  {tokens : List Token} {fresh : Bool} {position : Nat}

-- ---------------------------------------------------------------------------
-- Tokens of one segment
-- ---------------------------------------------------------------------------

/-- What a pattern is read as does not hang on how much is in front of it. -/
theorem readTokens_position (h : readTokens position fresh cs = .ok tokens) (other : Nat) :
    readTokens other fresh cs = .ok tokens := by
  fun_induction readTokens position fresh cs generalizing tokens other with
  | case1 =>
    rw [readTokens]
    exact h
  -- only a fault would tell of the position
  | case3 | case4 | case7 | case10 => contradiction
  | case5 position fresh hFresh =>
    rw [readTokens, if_neg hFresh]
    exact h
  | case6 position fresh hFresh rest hStars ih =>
    obtain ⟨others, hOthers, rfl⟩ := map_eq_ok_iff.1 h
    rw [readTokens, if_neg hFresh, ih hOthers]
    rfl
  -- the other cases read one token and go on further behind
  | case2 position fresh rest ih =>
    obtain ⟨others, hOthers, rfl⟩ := map_eq_ok_iff.1 h
    rw [readTokens, ih hOthers]
    rfl
  | case8 position fresh rest hMany hTwo ih =>
    obtain ⟨others, hOthers, rfl⟩ := map_eq_ok_iff.1 h
    rw [readTokens, ih hOthers]
    · rfl
    · exact hMany
    · exact hTwo
  | case9 position fresh rest token after hClass ih =>
    obtain ⟨others, hOthers, rfl⟩ := map_eq_ok_iff.1 h
    rw [readTokens]
    split
    · rename_i hSame
      rw [hClass] at hSame
      obtain ⟨rfl, rfl⟩ := Prod.mk.inj (Option.some.inj hSame)
      rw [ih hOthers]
      rfl
    · rename_i hNone
      rw [hClass] at hNone
      contradiction
  | case11 position fresh c rest hOne hMany hTwo hStar hClass ih =>
    obtain ⟨others, hOthers, rfl⟩ := map_eq_ok_iff.1 h
    rw [readTokens, ih hOthers]
    · rfl
    all_goals assumption

/-- Whether the tokens stand for nothing but a part of one segment. -/
def StaysInside (tokens : List Token) : Prop :=
  ∀ token ∈ tokens, token ≠ .literal '/' ∧ token ≠ .anySegments

theorem StaysInside.cons (hSlash : token ≠ .literal '/') (hStars : token ≠ .anySegments)
    (h : StaysInside tokens) : StaysInside (token :: tokens) :=
  List.forall_mem_cons.2 ⟨⟨hSlash, hStars⟩, h⟩

/-- A class is read from the text, and what is behind it is a part of the text. -/
theorem readClass?_spec (h : readClass? cs = some (token, after)) :
    (∃ negated members, token = .class_ negated members) ∧ after ⊆ cs := by
  have hBehind {rest others : List Char}
      (hSplit : splitAtFirst? [']'] rest = some (others, after)) : after ⊆ rest := by
    rw [eq_append_of_splitAtFirst? hSplit]
    exact List.subset_append_right _ _
  rw [readClass?.eq_def] at h
  split at h
  · obtain ⟨⟨others, behind⟩, hSplit, hClass⟩ := Option.map_eq_some_iff.1 h
    obtain ⟨rfl, rfl⟩ := Prod.mk.inj hClass
    exact ⟨⟨_, _, rfl⟩, fun c hMem => List.mem_cons_of_mem _ (List.mem_cons_of_mem _
      (hBehind hSplit hMem))⟩
  · contradiction
  · obtain ⟨⟨others, behind⟩, hSplit, hClass⟩ := Option.map_eq_some_iff.1 h
    obtain ⟨rfl, rfl⟩ := Prod.mk.inj hClass
    exact ⟨⟨_, _, rfl⟩, fun c hMem => List.mem_cons_of_mem _ (hBehind hSplit hMem)⟩
  · contradiction

/-- Without slashes the tokens of a pattern stay inside a segment, unless they are two stars. -/
theorem staysInside_or_of_readTokens (hSlash : '/' ∉ cs)
    (h : readTokens position fresh cs = .ok tokens) :
    StaysInside tokens ∨ fresh = true ∧ tokens = [.anySegments] := by
  fun_induction readTokens position fresh cs generalizing tokens with
  | case1 =>
    rw [← Except.ok.inj h]
    exact .inl fun _ hMem => absurd hMem List.not_mem_nil
  | case3 | case4 | case7 | case10 => contradiction
  | case5 position fresh hFresh =>
    rw [← Except.ok.inj h]
    exact .inr ⟨by simpa using hFresh, rfl⟩
  | case6 => simp at hSlash
  | case2 position fresh rest ih =>
    obtain ⟨others, hOthers, rfl⟩ := map_eq_ok_iff.1 h
    have hRest := (ih (fun hMem => hSlash (List.mem_cons_of_mem _ hMem)) hOthers).resolve_right
      (by simp)
    exact .inl (.cons (by simp) (by simp) hRest)
  | case8 position fresh rest hMany hTwo ih =>
    obtain ⟨others, hOthers, rfl⟩ := map_eq_ok_iff.1 h
    have hRest := (ih (fun hMem => hSlash (List.mem_cons_of_mem _ hMem)) hOthers).resolve_right
      (by simp)
    exact .inl (.cons (by simp) (by simp) hRest)
  | case9 position fresh rest token after hClass ih =>
    obtain ⟨others, hOthers, rfl⟩ := map_eq_ok_iff.1 h
    obtain ⟨⟨negated, members, rfl⟩, hAfter⟩ := readClass?_spec hClass
    have hRest := (ih (fun hMem => hSlash (List.mem_cons_of_mem _ (hAfter hMem)))
      hOthers).resolve_right (by simp)
    exact .inl (.cons (by simp) (by simp) hRest)
  | case11 position fresh c rest hOne hMany hTwo hStar hClass ih =>
    obtain ⟨others, hOthers, rfl⟩ := map_eq_ok_iff.1 h
    obtain ⟨hHere, hBehind⟩ := not_or.1 (mt List.mem_cons.2 hSlash)
    have hRest := (ih hBehind hOthers).resolve_right (by simp [Ne.symm hHere])
    exact .inl (.cons (by simpa using Ne.symm hHere) (by simp) hRest)

theorem readTokens_ne_nil (hSome : cs ≠ []) (h : readTokens position fresh cs = .ok tokens) :
    tokens ≠ [] := by
  fun_induction readTokens position fresh cs with
  | case1 => exact absurd rfl hSome
  | case3 | case4 | case7 | case10 => contradiction
  | case5 =>
    rw [← Except.ok.inj h]
    exact List.cons_ne_nil _ _
  | case2 | case6 | case8 | case9 | case11 =>
    obtain ⟨others, -, rfl⟩ := map_eq_ok_iff.1 h
    exact List.cons_ne_nil _ _

-- ---------------------------------------------------------------------------
-- Whole segments in front
-- ---------------------------------------------------------------------------

/-- Tokens that stay inside a segment match nothing with a slash. -/
theorem slash_notMem_of_matchesFrom (h : StaysInside tokens)
    (hMatch : matchesFrom fresh tokens text = true) : '/' ∉ text := by
  have hWild {fresh : Bool} {c : Char} (hc : isWild fresh c = true) : '/' ≠ c := by
    rintro rfl
    simp [isWild] at hc
  fun_induction matchesFrom fresh tokens text with
  | case1 fresh text =>
    rw [List.isEmpty_iff.1 hMatch]
    exact List.not_mem_nil
  | case2 | case4 | case6 | case7 | case8 => exact List.not_mem_nil
  | case3 fresh tokens c cs ihStar ihMore =>
    obtain ⟨-, hTokens⟩ := List.forall_mem_cons.1 h
    rcases Bool.or_eq_true_iff.1 hMatch with hHere | hMore
    · exact ihStar hTokens hHere
    · obtain ⟨hc, hRest⟩ := Bool.and_eq_true_iff.1 hMore
      exact List.not_mem_cons_of_ne_of_not_mem (hWild hc) (ihMore h hRest)
  | case5 fresh tokens c cs => exact absurd rfl (List.forall_mem_cons.1 h).1.2
  | case9 fresh l tokens c cs ih =>
    obtain ⟨⟨hSlash, -⟩, hTokens⟩ := List.forall_mem_cons.1 h
    obtain ⟨hSame, hRest⟩ := Bool.and_eq_true_iff.1 hMatch
    obtain rfl := beq_iff_eq.1 hSame
    exact List.not_mem_cons_of_ne_of_not_mem (fun hc => hSlash (by rw [hc])) (ih hTokens hRest)
  | case10 fresh tokens c cs ih =>
    obtain ⟨-, hTokens⟩ := List.forall_mem_cons.1 h
    obtain ⟨hc, hRest⟩ := Bool.and_eq_true_iff.1 hMatch
    exact List.not_mem_cons_of_ne_of_not_mem (hWild hc) (ih hTokens hRest)
  | case11 fresh negated members tokens c cs ih =>
    obtain ⟨-, hTokens⟩ := List.forall_mem_cons.1 h
    obtain ⟨hClass, hRest⟩ := Bool.and_eq_true_iff.1 hMatch
    obtain ⟨hc, -⟩ := Bool.and_eq_true_iff.1 hClass
    exact List.not_mem_cons_of_ne_of_not_mem (hWild hc) (ih hTokens hRest)

/-- Where the text has ended it makes no difference whether a segment starts. -/
theorem matchesFrom_nil (fresh other : Bool) (tokens : List Token) :
    matchesFrom fresh tokens [] = matchesFrom other tokens [] := by
  induction tokens with
  | nil => rw [matchesFrom, matchesFrom]
  | cons token tokens ih =>
    cases token with
    | anyText | anySegments =>
      rw [matchesFrom, matchesFrom]
      exact ih
    | literal | anyChar | class_ => rw [matchesFrom, matchesFrom]

/-- Tokens that can stand for nothing start with a star, and that can stand for a whole name. -/
theorem matchesFrom_of_nil (hEnd : matchesFrom false (token :: tokens) [] = true)
    (hSlash : '/' ∉ text) (hShown : fresh = true → text.head? ≠ some '.') :
    matchesFrom fresh (token :: tokens) text = true := by
  induction text generalizing fresh with
  | nil => rwa [matchesFrom_nil fresh false]
  | cons c cs ih =>
    obtain ⟨hHere, hRest⟩ := not_or.1 (mt List.mem_cons.2 hSlash)
    have hOther : (c == '/') = false := beq_eq_false_iff_ne.2 (Ne.symm hHere)
    have hDot : (fresh && c == '.') = false := by
      cases fresh with
      | false => rfl
      | true => exact beq_eq_false_iff_ne.2 fun hc => hShown rfl (congrArg some hc)
    have hMore : matchesFrom false (token :: tokens) cs = true := ih hRest (by simp)
    cases token with
    | anyText =>
      have hWild : isWild fresh c = true := by
        rw [isWild, hDot, bne_iff_ne.2 (Ne.symm hHere)]
        rfl
      rw [matchesFrom, hWild, hMore, Bool.true_and, Bool.or_true]
    | anySegments =>
      rw [matchesFrom, hDot, hOther, hMore, Bool.not_false, Bool.true_and, Bool.or_true]
    | literal | anyChar | class_ => simp [matchesFrom] at hEnd

/-- Segments that do not start with a dot are passed over. -/
theorem matchesFrom_anySegments_terminated
    (hFront : ∀ segment ∈ front, '/' ∉ segment ∧ segment.head? ≠ some '.')
    (h : matchesFrom true (.anySegments :: tokens) text = true) :
    matchesFrom true (.anySegments :: tokens) (terminated '/' front ++ text) = true := by
  induction front with
  | nil => exact h
  | cons segment front ih =>
    obtain ⟨⟨hSlash, hShown⟩, hRest⟩ := List.forall_mem_cons.1 hFront
    rw [terminated_cons, List.append_assoc, List.cons_append,
      matchesFrom_anySegments_segment hSlash, ih hRest, bne_iff_ne.2 hShown, Bool.and_true,
      Bool.or_true]

/-- No segment need be passed over. -/
theorem matchesFrom_anySegments_here (h : matchesFrom true tokens text = true) :
    matchesFrom true (.anySegments :: tokens) text = true := by
  cases text with
  | nil => rwa [matchesFrom]
  | cons c cs => rw [matchesFrom, h, Bool.true_and, Bool.true_or]

/-- Behind whole segments the last name is matched, if what is behind them stays inside a segment or
is two stars. -/
theorem matchesFrom_anySegments_names (hSome : tokens ≠ [])
    (hTokens : StaysInside tokens ∨ tokens = [.anySegments])
    (hNames : ∀ name ∈ front ++ [last], '/' ∉ name ∧ name.head? ≠ some '.') :
    matchesFrom true (.anySegments :: tokens) (joined '/' (front ++ [last]))
      = matchesFrom true tokens last := by
  have hJoined {front : List (List Char)} :
      joined '/' (front ++ [last]) = terminated '/' front ++ last :=
    joined_append '/' front (List.cons_ne_nil last [])
  have hFront := fun name hMem => hNames name (List.mem_append_left [last] hMem)
  obtain ⟨hSlash, hShown⟩ := hNames last (List.mem_append_right _ List.mem_cons_self)
  rw [Bool.eq_iff_iff]
  constructor
  · intro hMatch
    by_cases hEnd : matchesFrom false tokens [] = true
    · obtain ⟨token, others, rfl⟩ := List.exists_cons_of_ne_nil hSome
      exact matchesFrom_of_nil hEnd hSlash fun _ => hShown
    · have hInside : StaysInside tokens := by
        refine hTokens.resolve_right ?_
        rintro rfl
        exact hEnd (by simp [matchesFrom])
      obtain ⟨passed, behind, hParts, hBehind, -, hHere⟩ :=
        (matchesFrom_anySegments_iff (Bool.not_eq_true _ ▸ hEnd) (by simp)
          fun name hMem => (hNames name hMem).1).1 hMatch
      obtain ⟨between, name, rfl⟩ := List.eq_nil_or_concat behind |>.resolve_left hBehind
      rw [List.concat_eq_append, ← List.append_assoc] at hParts
      obtain ⟨-, hLast⟩ := List.append_inj' hParts rfl
      obtain rfl := (List.cons.inj hLast).1
      rw [List.concat_eq_append, hJoined] at hHere
      -- a name in between would have a slash behind it
      cases between with
      | nil => exact hHere
      | cons other between =>
        have hNone := slash_notMem_of_matchesFrom hInside hHere
        rw [terminated_cons] at hNone
        simp at hNone
  · intro hMatch
    rw [hJoined]
    exact matchesFrom_anySegments_terminated hFront (matchesFrom_anySegments_here hMatch)

end Relocation.Glob

import Relocation.Glob
import Relocation.Proofs.Text.Joins

/-!
# Wildcards and segments

Two of the wildcards are told by segments. Two stars stand for whole segments that do not start
with a dot: what follows them is matched behind any such segments in front, and nowhere else, unless
it can match inside a segment where the text ends. A star in front of an ending that is written
stands for what one segment has in front of it.

## Results

* `matchesFrom_anySegments_iff`: what two stars stand for;
* `matchesFrom_anyText_iff`: what a star stands for in front of an ending.
-/

namespace Relocation.Glob

open Text

variable {segment ending text : List Char} {list : List (List Char)} {tokens : List Token}
  {fresh : Bool}

/-- Inside a segment whole segments are looked for behind the next slash. -/
theorem matchesFrom_anySegments_append (h : '/' ∉ segment) (more : List Char) :
    matchesFrom false (.anySegments :: tokens) (segment ++ '/' :: more)
      = matchesFrom true (.anySegments :: tokens) more := by
  induction segment with
  | nil =>
    rw [List.nil_append, matchesFrom]
    rfl
  | cons c cs ih =>
    obtain ⟨hHere, hRest⟩ := not_or.1 (mt List.mem_cons.2 h)
    have hOther : (c == '/') = false := beq_eq_false_iff_ne.2 (Ne.symm hHere)
    rw [List.cons_append, matchesFrom, hOther, ih hRest]
    rfl

/-- Without slashes there is no place for whole segments inside a segment, but its end. -/
theorem matchesFrom_anySegments_of_notMem (h : '/' ∉ segment) :
    matchesFrom false (.anySegments :: tokens) segment = matchesFrom false tokens [] := by
  induction segment with
  | nil => rw [matchesFrom]
  | cons c cs ih =>
    obtain ⟨hHere, hRest⟩ := not_or.1 (mt List.mem_cons.2 h)
    have hOther : (c == '/') = false := beq_eq_false_iff_ne.2 (Ne.symm hHere)
    rw [matchesFrom, hOther, ih hRest]
    rfl

/-- Whole segments end in front of a segment or are gone on with behind it, unless it starts with a
dot. -/
theorem matchesFrom_anySegments_segment (h : '/' ∉ segment) (more : List Char) :
    matchesFrom true (.anySegments :: tokens) (segment ++ '/' :: more)
      = (matchesFrom true tokens (segment ++ '/' :: more)
        || segment.head? != some '.' && matchesFrom true (.anySegments :: tokens) more) := by
  cases segment with
  | nil =>
    rw [List.nil_append, matchesFrom]
    rfl
  | cons c cs =>
    obtain ⟨hHere, hRest⟩ := not_or.1 (mt List.mem_cons.2 h)
    have hOther : (c == '/') = false := beq_eq_false_iff_ne.2 (Ne.symm hHere)
    rw [List.cons_append, matchesFrom, hOther, matchesFrom_anySegments_append hRest]
    rfl

/-- Behind the last segment nothing is left to be matched, so whole segments end in front of it. -/
theorem matchesFrom_anySegments_last (hEnd : matchesFrom false tokens [] = false)
    (h : '/' ∉ segment) :
    matchesFrom true (.anySegments :: tokens) segment = matchesFrom true tokens segment := by
  cases segment with
  | nil => rw [matchesFrom]
  | cons c cs =>
    obtain ⟨hHere, hRest⟩ := not_or.1 (mt List.mem_cons.2 h)
    rw [matchesFrom, beq_eq_false_iff_ne.2 (Ne.symm hHere),
      matchesFrom_anySegments_of_notMem hRest, hEnd, Bool.and_false, Bool.or_false, Bool.true_and]

/-- Whole segments are segments that do not start with a dot. -/
theorem matchesFrom_anySegments_iff (hEnd : matchesFrom false tokens [] = false)
    (hList : list ≠ []) (hFree : ∀ segment ∈ list, '/' ∉ segment) :
    matchesFrom true (.anySegments :: tokens) (joined '/' list) = true ↔
      ∃ front behind, list = front ++ behind ∧ behind ≠ [] ∧
        (∀ segment ∈ front, segment.head? ≠ some '.') ∧
        matchesFrom true tokens (joined '/' behind) = true := by
  induction list with
  | nil => exact absurd rfl hList
  | cons segment list ih =>
    obtain ⟨hHere, hRest⟩ := List.forall_mem_cons.1 hFree
    cases list with
    | nil =>
      show matchesFrom true _ segment = true ↔ _
      -- of one segment nothing can be taken, since none is left behind it
      rw [matchesFrom_anySegments_last hEnd hHere]
      constructor
      · intro hMatch
        exact ⟨[], [segment], rfl, List.cons_ne_nil _ _, by simp, hMatch⟩
      · rintro ⟨front, behind, hParts, hSome, -, hMatch⟩
        rcases List.singleton_eq_append_iff.1 hParts with ⟨rfl, rfl⟩ | ⟨rfl, rfl⟩
        · exact hMatch
        · exact absurd rfl hSome
    | cons next others =>
      show matchesFrom true _ (segment ++ '/' :: joined '/' (next :: others)) = true ↔ _
      -- no segment is taken, or the first one is and the stars go on behind it
      rw [matchesFrom_anySegments_segment hHere, Bool.or_eq_true, Bool.and_eq_true, bne_iff_ne,
        ih (List.cons_ne_nil next others) hRest]
      constructor
      · rintro (hMatch | ⟨hShown, front, behind, hParts, hSome, hFront, hMatch⟩)
        · exact ⟨[], segment :: next :: others, rfl, List.cons_ne_nil _ _, by simp, hMatch⟩
        · exact ⟨segment :: front, behind, by rw [hParts]; rfl, hSome,
            List.forall_mem_cons.2 ⟨hShown, hFront⟩, hMatch⟩
      · rintro ⟨front, behind, hParts, hSome, hFront, hMatch⟩
        cases front with
        | nil =>
          left
          rw [show behind = segment :: next :: others from hParts.symm] at hMatch
          exact hMatch
        | cons first front =>
          obtain ⟨rfl, hOthers⟩ := List.cons.inj hParts
          obtain ⟨hShown, hFront⟩ := List.forall_mem_cons.1 hFront
          exact .inr ⟨hShown, front, behind, hOthers, hSome, hFront, hMatch⟩

/-- Characters of one segment in front of an ending that is written. -/
theorem matchesFrom_anyText_iff :
    matchesFrom fresh (.anyText :: ending.map .literal) text = true ↔
      ∃ stem, text = stem ++ ending ∧ '/' ∉ stem ∧ (fresh = true → stem.head? ≠ some '.') := by
  induction text generalizing fresh with
  | nil =>
    rw [matchesFrom, matchesFrom_literals]
    constructor
    · rintro rfl
      exact ⟨[], rfl, List.not_mem_nil, by simp⟩
    · rintro ⟨stem, hText, -⟩
      exact (List.append_eq_nil_iff.1 hText.symm).2.symm
  | cons c cs ih =>
    have hWild : isWild fresh c = true ↔ c ≠ '/' ∧ (fresh = true → c ≠ '.') := by
      cases fresh <;> simp [isWild]
    rw [matchesFrom, Bool.or_eq_true, matchesFrom_literals, Bool.and_eq_true, ih, hWild]
    constructor
    · rintro (rfl | ⟨⟨hSlash, hDot⟩, stem, rfl, hFree, -⟩)
      · exact ⟨[], rfl, List.not_mem_nil, by simp⟩
      · refine ⟨c :: stem, rfl, ?_, fun hFresh hHead => hDot hFresh (Option.some.inj hHead)⟩
        exact fun hMem => (List.mem_cons.1 hMem).elim (fun hSame => hSlash hSame.symm) hFree
    · rintro ⟨stem, hText, hFree, hShown⟩
      cases stem with
      | nil => exact .inl hText
      | cons d stem =>
        obtain ⟨rfl, rfl⟩ := List.cons.inj hText
        obtain ⟨hSlash, hRest⟩ := not_or.1 (mt List.mem_cons.2 hFree)
        refine .inr ⟨⟨Ne.symm hSlash, fun hFresh hDot => hShown hFresh (by rw [hDot]; rfl)⟩,
          stem, rfl, hRest, by simp⟩

end Relocation.Glob

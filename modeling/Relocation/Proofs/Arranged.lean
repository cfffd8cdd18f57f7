import Mathlib.Data.List.Nodup
import Relocation.Splice

/-!
# Replacements in another order

The splicer works through replacements from the greatest start to the smallest, and leaves those
with the same start in the order in which it was given them. That tells for every entry where it
goes: there is one way only to arrange a list so. Which of two ranges that overlap is replaced is
settled by the arrangement alone. So the order in which replacements are given plays no part, but
for those that start at the same place.

## Results

* `arranged_latestFirst`: the splicer's order keeps those with the same start as they stood;
* `Arranged.unique`: there is one such order only;
* `splice_rearranged`: the order of the replacements does not matter beyond ties.
-/

namespace Relocation

variable {rs rs' order order' : List Replacement}

-- ---------------------------------------------------------------------------
-- Arrangements
-- ---------------------------------------------------------------------------

namespace Replacement

/-- The replacements that start at the offset, in the order of the list. -/
def startingAt (start : Nat) (rs : List Replacement) : List Replacement :=
  rs.filter fun r => r.start == start

theorem mem_startingAt {start : Nat} {r : Replacement} :
    r ∈ startingAt start rs ↔ r ∈ rs ∧ r.start = start := by
  rw [startingAt, List.mem_filter, beq_iff_eq]

theorem startingAt_cons_self (r : Replacement) (rs : List Replacement) :
    startingAt r.start (r :: rs) = r :: startingAt r.start rs := by
  exact List.filter_cons_of_pos (beq_self_eq_true r.start)

/-- The starts do not tell apart the replacements that start at an offset. -/
theorem startingAt_pairwise (start : Nat) (rs : List Replacement) :
    (startingAt start rs).Pairwise fun l r => decide (r.start ≤ l.start) = true := by
  refine List.pairwise_of_forall_mem_list ?_
  intro l hl r hr
  have hSame : r.start = l.start := (mem_startingAt.1 hr).2.trans (mem_startingAt.1 hl).2.symm
  rw [decide_eq_true_eq]
  exact Nat.le_of_eq hSame

end Replacement

open Replacement

/-- The order goes from the greatest start to the smallest, and the replacements with the same start
stand as they do in the list. -/
structure Arranged (rs order : List Replacement) : Prop where
  descending : order.Pairwise fun l r => r.start ≤ l.start
  ties : ∀ start, startingAt start order = startingAt start rs

/-- Sorting by the start arranges the replacements. -/
theorem arranged_latestFirst (rs : List Replacement) : Arranged rs (latestFirst rs) := by
  have hTrans (a b c : Replacement) (hab : decide (b.start ≤ a.start) = true)
      (hbc : decide (c.start ≤ b.start) = true) : decide (c.start ≤ a.start) = true := by
    rw [decide_eq_true_eq] at *
    exact Nat.le_trans hbc hab
  have hTotal (a b : Replacement) :
      (decide (b.start ≤ a.start) || decide (a.start ≤ b.start)) = true := by
    rw [Bool.or_eq_true, decide_eq_true_eq, decide_eq_true_eq]
    exact Nat.le_total b.start a.start
  refine ⟨?_, ?_⟩
  · have hSorted := List.pairwise_mergeSort hTrans hTotal rs
    exact hSorted.imp fun h => of_decide_eq_true h
  · intro start
    -- sorting is stable: a part of the list that is in order stays a part of it
    have hPart : (startingAt start rs).Sublist (latestFirst rs) :=
      List.sublist_mergeSort hTrans hTotal (startingAt_pairwise start rs) List.filter_sublist
    have hSub : (startingAt start rs).Sublist (startingAt start (latestFirst rs)) := by
      have hFiltered := hPart.filter fun r => r.start == start
      simpa only [startingAt, List.filter_filter, Bool.and_self] using hFiltered
    have hLength : (startingAt start rs).length = (startingAt start (latestFirst rs)).length :=
      ((List.mergeSort_perm rs _).filter _).length_eq.symm
    exact (hSub.eq_of_length hLength).symm

/-- A list begins no further on than an order from the greatest start to the smallest does in which
the same replacements start at every offset. -/
theorem start_le_of_ties {r r' : Replacement} {rest rest' : List Replacement}
    (hDescending : (r' :: rest').Pairwise fun l r => r.start ≤ l.start)
    (hTies : ∀ start, startingAt start (r :: rest) = startingAt start (r' :: rest')) :
    r.start ≤ r'.start := by
  have hMem : r ∈ startingAt r.start (r' :: rest') := by
    rw [← hTies]
    exact mem_startingAt.2 ⟨List.mem_cons_self, rfl⟩
  rcases List.mem_cons.1 (mem_startingAt.1 hMem).1 with rfl | hRest
  · exact Nat.le_refl _
  · exact (List.pairwise_cons.1 hDescending).1 r hRest

/-- An order from the greatest start to the smallest is told by which replacements start at every
offset. -/
theorem eq_of_ties (hDescending : order.Pairwise fun l r => r.start ≤ l.start)
    (hDescending' : order'.Pairwise fun l r => r.start ≤ l.start)
    (hTies : ∀ start, startingAt start order = startingAt start order') : order = order' := by
  induction order generalizing order' with
  | nil =>
    cases order' with
    | nil => rfl
    | cons r' rest' =>
      have hHead := hTies r'.start
      rw [startingAt_cons_self] at hHead
      contradiction
  | cons r rest ih =>
    cases order' with
    | nil =>
      have hHead := hTies r.start
      rw [startingAt_cons_self] at hHead
      contradiction
    | cons r' rest' =>
      have hStart : r.start = r'.start := Nat.le_antisymm (start_le_of_ties hDescending' hTies)
        (start_le_of_ties hDescending fun start => (hTies start).symm)
      have hHead := hTies r.start
      rw [startingAt_cons_self, hStart, startingAt_cons_self] at hHead
      obtain ⟨rfl, -⟩ := List.cons.inj hHead
      have hRest : ∀ start, startingAt start rest = startingAt start rest' := by
        intro start
        have hHere := hTies start
        rw [startingAt, startingAt, List.filter_cons, List.filter_cons] at hHere
        split at hHere
        · exact (List.cons.inj hHere).2
        · exact hHere
      rw [ih (List.pairwise_cons.1 hDescending).2 (List.pairwise_cons.1 hDescending').2 hRest]

/-- There is one way only to arrange replacements. -/
theorem Arranged.unique (h : Arranged rs order) (h' : Arranged rs order') : order = order' :=
  eq_of_ties h.descending h'.descending fun start => (h.ties start).trans (h'.ties start).symm

-- ---------------------------------------------------------------------------
-- Lists in another order
-- ---------------------------------------------------------------------------

/-- The second list holds the replacements of the first in another order, in which those with the
same start stand as they stood. -/
structure Rearranged (rs rs' : List Replacement) : Prop where
  perm : rs.Perm rs'
  ties : ∀ r ∈ rs, startingAt r.start rs' = startingAt r.start rs

theorem rearranged_iff :
    Rearranged rs rs' ↔
      rs.Perm rs' ∧ ∀ r ∈ rs, startingAt r.start rs' = startingAt r.start rs :=
  ⟨fun h => ⟨h.perm, h.ties⟩, fun h => ⟨h.1, h.2⟩⟩

instance : Decidable (Rearranged rs rs') := decidable_of_iff' _ rearranged_iff

/-- At any offset the same replacements start. -/
theorem Rearranged.startingAt (h : Rearranged rs rs') (start : Nat) :
    startingAt start rs' = startingAt start rs := by
  by_cases hSome : ∃ r ∈ rs, r.start = start
  · obtain ⟨r, hMem, rfl⟩ := hSome
    exact h.ties r hMem
  · have hNone (list : List Replacement) (hList : list.Perm rs) :
        Replacement.startingAt start list = [] := by
      rw [List.eq_nil_iff_forall_not_mem]
      intro r hMem
      obtain ⟨hr, hStart⟩ := mem_startingAt.1 hMem
      exact hSome ⟨r, hList.mem_iff.1 hr, hStart⟩
    rw [hNone rs' h.perm.symm, hNone rs (List.Perm.refl rs)]

/-- Lists in another order are worked through alike. -/
theorem Rearranged.latestFirst_eq (h : Rearranged rs rs') : latestFirst rs' = latestFirst rs := by
  have hHere := arranged_latestFirst rs
  have hThere := arranged_latestFirst rs'
  refine hThere.unique ⟨hHere.descending, fun start => ?_⟩
  rw [hHere.ties, h.startingAt]

/-- Where all starts differ there are no ties to keep. -/
theorem rearranged_of_nodup (hPerm : rs.Perm rs') (hStarts : (rs.map Replacement.start).Nodup) :
    Rearranged rs rs' := by
  refine ⟨hPerm, ?_⟩
  intro r hMem
  have hOnly (list : List Replacement) (hList : list.Perm rs) :
      startingAt r.start list = List.replicate (startingAt r.start rs).length r := by
    refine List.eq_replicate_iff.2 ⟨(hList.filter _).length_eq, ?_⟩
    intro s hs
    obtain ⟨hs, hStart⟩ := mem_startingAt.1 hs
    exact List.inj_on_of_nodup_map hStarts (hList.mem_iff.1 hs) hMem hStart
  rw [hOnly rs' hPerm.symm]
  exact (hOnly rs (List.Perm.refl rs)).symm

/-- **Order of replacements.** The order in which replacements are listed does not matter beyond
ties. Two lists with the same replacements give the same text if those with one start stand in the
same order in both of them; if no two replacements start alike, every rearrangement does.

Nothing is asked of the replacements: the ranges may lie beyond the text and may overlap, and
which of them take effect is part of what does not change. -/
theorem splice_rearranged (source : String) (rs rs' : List Replacement) :
    (Rearranged rs rs' → splice source rs' = splice source rs) ∧
      (rs.Perm rs' → (rs.map Replacement.start).Nodup → splice source rs' = splice source rs) := by
  have hSame (h : Rearranged rs rs') : splice source rs' = splice source rs := by
    rw [splice, splice, h.latestFirst_eq]
  exact ⟨hSame, fun hPerm hStarts => hSame (rearranged_of_nodup hPerm hStarts)⟩

/-- Four ranges, of which two start at the same place and two overlap, in two orders, and two ranges
that start apart. -/
theorem splice_rearranged_twoTies :
    (Rearranged [⟨2, 5, "p"⟩, ⟨2, 9, "q"⟩, ⟨10, 40, "r"⟩, ⟨9, 13, "s"⟩]
        [⟨9, 13, "s"⟩, ⟨2, 5, "p"⟩, ⟨10, 40, "r"⟩, ⟨2, 9, "q"⟩] ∧
      splice "a('x'); b('yy');" [⟨9, 13, "s"⟩, ⟨2, 5, "p"⟩, ⟨10, 40, "r"⟩, ⟨2, 9, "q"⟩]
        = splice "a('x'); b('yy');" [⟨2, 5, "p"⟩, ⟨2, 9, "q"⟩, ⟨10, 40, "r"⟩, ⟨9, 13, "s"⟩]) ∧
    ([⟨2, 5, "p"⟩, ⟨9, 13, "s"⟩] : List Replacement).Perm [⟨9, 13, "s"⟩, ⟨2, 5, "p"⟩] ∧
      (([⟨2, 5, "p"⟩, ⟨9, 13, "s"⟩] : List Replacement).map Replacement.start).Nodup ∧
      splice "a('x'); b('yy');" [⟨9, 13, "s"⟩, ⟨2, 5, "p"⟩]
        = splice "a('x'); b('yy');" [⟨2, 5, "p"⟩, ⟨9, 13, "s"⟩] := by
  refine ⟨⟨by decide, ?_⟩, by decide, by decide, ?_⟩
  · exact (splice_rearranged _ _ _).1 (by decide)
  · exact (splice_rearranged _ _ _).2 (by decide) (by decide)

end Relocation

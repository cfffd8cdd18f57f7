import Relocation.Expansion
import Relocation.Proofs.Matching
import Relocation.Proofs.Text.Joins

/-!
# Plain forms

Globs are read in plain form: with slashes for backslashes, and without a dot and a slash in front.
Neither makes a difference to their braces. So the alternatives of a glob in plain form are its
alternatives in plain form, unless one of these only comes to start with a dot and a slash when its
group is taken away.

## Results

* `plainForm_eq_iff`: the globs that are in plain form;
* `Glob.alternatives_withSlashes`, `Glob.map_plainForm_alternatives`: the alternatives of a glob in
  plain form.
-/

namespace Relocation

open Text

variable {c : Char} {cs pattern part : List Char}

-- ---------------------------------------------------------------------------
-- Characters of alternatives
-- ---------------------------------------------------------------------------

namespace Glob

theorem mem_joined {separator : Char} {list : List (List Char)} (h : part ∈ list) (hc : c ∈ part) :
    c ∈ joined separator list := by
  obtain ⟨front, behind, rfl⟩ := List.append_of_mem h
  rw [joined_append separator front (List.cons_ne_nil part behind)]
  refine List.mem_append_right _ ?_
  cases behind with
  | nil => exact hc
  | cons => exact List.mem_append_left _ hc

/-- Alternatives are made of the characters of the glob. -/
theorem mem_of_mem_alternatives (h : part ∈ alternatives cs) (hc : c ∈ part) : c ∈ cs := by
  induction cs using alternatives.induct with
  | case1 cs hNone =>
    rw [alternatives_of_none hNone] at h
    rwa [← List.mem_singleton.1 h]
  | case2 cs group hGroup ih =>
    rw [alternatives_of_some hGroup] at h
    obtain ⟨inner, hInner, hMem⟩ := List.mem_flatMap.1 h
    have hWith : c ∈ group.withPart inner := ih ⟨inner, hInner⟩ hMem
    rw [eq_of_firstGroup? hGroup]
    rcases List.mem_append.1 hWith with hFront | hAfter
    · rcases List.mem_append.1 hFront with hBefore | hPart
      · simp [hBefore]
      · have hBraces : c ∈ joined ',' group.closed.parts := mem_joined hInner hPart
        simp [hBraces]
    · simp [hAfter]

theorem exists_mem_alternatives (cs : List Char) : ∃ part, part ∈ alternatives cs := by
  induction cs using alternatives.induct with
  | case1 cs hNone => exact ⟨cs, by rw [alternatives_of_none hNone]; exact List.mem_cons_self⟩
  | case2 cs group hGroup ih =>
    have hFirst : group.closed.first ∈ group.closed.parts := List.mem_cons_self
    obtain ⟨part, hPart⟩ := ih ⟨_, hFirst⟩
    rw [alternatives_of_some hGroup]
    exact ⟨part, List.mem_flatMap.2 ⟨_, hFirst, hPart⟩⟩

end Glob

-- ---------------------------------------------------------------------------
-- Slashes for backslashes
-- ---------------------------------------------------------------------------

theorem withSlashes_of_notMem {text : List Char} (h : '\\' ∉ text) : withSlashes text = text := by
  refine (List.map_congr_left fun c hMem => if_neg ?_).trans (List.map_id' text)
  rintro rfl
  exact h hMem

theorem backslash_notMem_withSlashes (cs : List Char) : '\\' ∉ withSlashes cs := by
  intro hMem
  obtain ⟨c, -, hc⟩ := List.mem_map.1 hMem
  split at hc
  · contradiction
  · rename_i hOther
    exact hOther hc

namespace Glob

/-- A character as it is written in a text with slashes only. -/
def slashed (c : Char) : Char := if c = '\\' then '/' else c

theorem withSlashes_cons (c : Char) (cs : List Char) :
    withSlashes (c :: cs) = slashed c :: withSlashes cs := rfl

/-- Only slashes and backslashes are told from how they are written. -/
theorem slashed_eq_iff (c : Char) {mark : Char} (h : mark ∉ ['\\', '/']) :
    slashed c = mark ↔ c = mark := by
  unfold slashed
  split
  · rename_i hBackslash
    rw [hBackslash]
    constructor
    · rintro rfl
      exact absurd (by decide) h
    · rintro rfl
      exact absurd (by decide) h
  · rfl

theorem depthBehind?_slashed (depth : Nat) (c : Char) :
    depthBehind? depth (slashed c) = depthBehind? depth c := by
  have hClose : slashed c = '\x7d' ↔ c = '\x7d' := slashed_eq_iff c (by decide)
  have hOpen : slashed c = '\x7b' ↔ c = '\x7b' := slashed_eq_iff c (by decide)
  simp only [depthBehind?, hClose, hOpen]

/-- The group with slashes only. -/
def Closed.withSlashes (closed : Closed) : Closed :=
  ⟨Relocation.withSlashes closed.first, closed.others.map Relocation.withSlashes,
    Relocation.withSlashes closed.after⟩

theorem closeGroup?_withSlashes (depth : Nat) (cs : List Char) :
    closeGroup? depth (withSlashes cs) = (closeGroup? depth cs).map Closed.withSlashes := by
  induction cs generalizing depth with
  | nil => rfl
  | cons c cs ih =>
    have hComma : slashed c = ',' ↔ c = ',' := slashed_eq_iff c (by decide)
    rw [withSlashes_cons, closeGroup?_cons, closeGroup?_cons, depthBehind?_slashed]
    cases depthBehind? depth c with
    | none => rfl
    | some next =>
      simp only [hComma, ih, Option.map_map]
      congr 1
      by_cases hOwn : c = ',' ∧ depth = 0
      · rw [if_pos hOwn, if_pos hOwn]
        rfl
      · rw [if_neg hOwn, if_neg hOwn]
        rfl

/-- The group with slashes only. -/
def Group.withSlashes (group : Group) : Group :=
  ⟨Relocation.withSlashes group.before, group.closed.withSlashes⟩

theorem groupBehindBrace?_withSlashes (cs : List Char) :
    groupBehindBrace? (withSlashes cs) = (groupBehindBrace? cs).map Group.withSlashes := by
  rw [groupBehindBrace?, groupBehindBrace?, closeGroup?_withSlashes]
  cases closeGroup? 0 cs with
  | none => rfl
  | some closed =>
    simp only [Option.map_some, Closed.withSlashes, List.map_eq_nil_iff]
    split <;> rfl

theorem firstGroup?_withSlashes (cs : List Char) :
    firstGroup? (withSlashes cs) = (firstGroup? cs).map Group.withSlashes := by
  induction cs with
  | nil => rfl
  | cons c cs ih =>
    have hHere : (if slashed c = '\x7b' then groupBehindBrace? (withSlashes cs) else none)
        = (if c = '\x7b' then groupBehindBrace? cs else none).map Group.withSlashes := by
      have hOpen : slashed c = '\x7b' ↔ c = '\x7b' := slashed_eq_iff c (by decide)
      simp only [hOpen, groupBehindBrace?_withSlashes]
      split <;> rfl
    rw [withSlashes_cons, firstGroup?, firstGroup?, hHere, ih]
    cases (if c = '\x7b' then groupBehindBrace? cs else none) with
    | some group => rfl
    | none =>
      cases firstGroup? cs <;> rfl

theorem withPart_withSlashes (group : Group) (part : List Char) :
    group.withSlashes.withPart (withSlashes part) = withSlashes (group.withPart part) := by
  simp only [Group.withPart, Group.withSlashes, Closed.withSlashes, withSlashes, List.map_append]

/-- The alternatives of a glob with slashes only are its alternatives with slashes only. -/
theorem alternatives_withSlashes (cs : List Char) :
    alternatives (withSlashes cs) = (alternatives cs).map withSlashes := by
  induction cs using alternatives.induct with
  | case1 cs hNone =>
    rw [alternatives_of_none (by rw [firstGroup?_withSlashes, hNone]; rfl),
      alternatives_of_none hNone]
    rfl
  | case2 cs group hGroup ih =>
    have hSlashed : firstGroup? (withSlashes cs) = some group.withSlashes := by
      rw [firstGroup?_withSlashes, hGroup]
      rfl
    rw [alternatives_of_some hSlashed, alternatives_of_some hGroup, List.map_flatMap]
    show (group.closed.parts.map withSlashes).flatMap _ = _
    rw [List.flatMap_map]
    refine List.flatMap_congr fun part hPart => ?_
    rw [withPart_withSlashes]
    exact ih ⟨part, hPart⟩

end Glob

-- ---------------------------------------------------------------------------
-- Plain forms
-- ---------------------------------------------------------------------------

/-- A glob is in plain form if there is no backslash in it and no dot and a slash in front. -/
theorem plainForm_eq_iff :
    plainForm pattern = pattern ↔ '\\' ∉ pattern ∧ ¬['.', '/'] <+: pattern := by
  rw [plainForm]
  split
  · rename_i rest hForm
    constructor
    · rintro rfl
      -- it would be as long as what is behind its first two characters
      have hLength := congrArg List.length hForm
      rw [withSlashes, List.length_map, List.length_cons, List.length_cons] at hLength
      omega
    · rintro ⟨hSlashes, hStart⟩
      rw [withSlashes_of_notMem hSlashes] at hForm
      exact absurd ⟨rest, hForm.symm⟩ hStart
  · rename_i hOther
    constructor
    · intro hSame
      rw [← hSame]
      refine ⟨backslash_notMem_withSlashes pattern, ?_⟩
      rintro ⟨rest, hRest⟩
      exact hOther rest hRest.symm
    · rintro ⟨hSlashes, -⟩
      exact withSlashes_of_notMem hSlashes

theorem plainForm_withSlashes (pattern : List Char) :
    plainForm (withSlashes pattern) = plainForm pattern := by
  rw [plainForm, plainForm, withSlashes_of_notMem (backslash_notMem_withSlashes pattern)]

theorem plainForm_of_slashes (h : withSlashes pattern = ['.', '/'] ++ cs) :
    plainForm pattern = cs := by
  rw [plainForm, h]
  rfl

/-- The alternatives of a glob in plain form are its alternatives in plain form. -/
theorem Glob.map_plainForm_alternatives
    (h : ∀ part ∈ alternatives (plainForm pattern), plainForm part = part) :
    (alternatives pattern).map plainForm = alternatives (plainForm pattern) := by
  have hSlashes : (alternatives pattern).map plainForm
      = (alternatives (withSlashes pattern)).map plainForm := by
    rw [alternatives_withSlashes, List.map_map]
    exact List.map_congr_left fun part _ => (plainForm_withSlashes part).symm
  rw [hSlashes]
  by_cases hStart : ∃ rest, withSlashes pattern = ['.', '/'] ++ rest
  · obtain ⟨rest, hRest⟩ := hStart
    have hFree : '\\' ∉ rest := by
      intro hMem
      refine backslash_notMem_withSlashes pattern ?_
      rw [hRest]
      exact List.mem_append_right _ hMem
    rw [plainForm_of_slashes hRest, hRest, alternatives_of_plain (by decide), List.map_map]
    refine (List.map_congr_left fun part hPart => ?_).trans (List.map_id _)
    refine plainForm_of_slashes (withSlashes_of_notMem ?_)
    simpa using mt (mem_of_mem_alternatives hPart) hFree
  · have hForm : plainForm pattern = withSlashes pattern := by
      rw [plainForm]
      split
      · rename_i rest hRest
        exact absurd ⟨rest, hRest⟩ hStart
      · rfl
    rw [hForm] at h ⊢
    exact (List.map_congr_left h).trans (List.map_id _)

end Relocation

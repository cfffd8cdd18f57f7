import Mathlib.Data.List.Basic
import Relocation.Glob.Braces

/-!
# What braces stand for

The alternatives of a text are found step by step: the first group is replaced by each of its
parts, and the whole text is searched again. So that this comes to what braces are meant to say, a
part that is put in must leave the braces around it as they were. It does, because it is balanced
and has no comma of its own: it closes no brace that is open around it, and it gives no group a
part. Then the alternatives of two texts, one behind the other, are the pairs of their
alternatives, as long as no brace of the first is left open to the second; the alternatives of a
group are those of its parts; and in an alternative no group is left.

## Results

* `closeGroup?_joined`, `isPart_of_closeGroup?`: a group is read as the parts that it is made of;
* `EachClosed.withPart`: a part in place of its group leaves no brace open;
* `alternatives_append`: the alternatives of two texts, one behind the other;
* `alternatives_group`: the alternatives of a group;
* `alternatives_of_mem`: an alternative stands for itself.
-/

namespace Relocation.Glob

open Text

variable {c : Char} {cs more part rest inside after : List Char} {depth next : Nat}
  {closed : Closed} {group : Group}

-- ---------------------------------------------------------------------------
-- Nesting
-- ---------------------------------------------------------------------------

/-- How many braces are open behind a character, given how many are open before it. There is no
answer if it closes a brace and none is open. -/
def depthBehind? (depth : Nat) (c : Char) : Option Nat :=
  if c = '\x7d' then (if depth = 0 then none else some (depth - 1))
  else if c = '\x7b' then some (depth + 1)
  else some depth

/-- How many braces are open behind a text, given how many are open before it. -/
def depthAfter? (depth : Nat) (cs : List Char) : Option Nat := cs.foldlM depthBehind? depth

/-- The text closes the braces that it opens, and no others. -/
def Balanced (cs : List Char) : Prop := depthAfter? 0 cs = some 0

instance (cs : List Char) : Decidable (Balanced cs) := decEq (depthAfter? 0 cs) (some 0)

/-- The text closes the braces that are open before it and those that it opens, and each of its
commas stands inside braces. -/
structure IsPart (depth : Nat) (cs : List Char) : Prop where
  closes : depthAfter? depth cs = some 0
  commas : ∀ front behind, cs = front ++ ',' :: behind → depthAfter? depth front ≠ some 0

/-- Each brace that the text opens is closed in it. -/
def EachClosed (cs : List Char) : Prop :=
  ∀ front behind, cs = front ++ '\x7b' :: behind →
    ∃ inside after, behind = inside ++ '\x7d' :: after ∧ Balanced inside

theorem depthAfter?_cons (depth : Nat) (c : Char) (cs : List Char) :
    depthAfter? depth (c :: cs) = (depthBehind? depth c).bind fun next => depthAfter? next cs :=
  List.foldlM_cons

theorem depthAfter?_append (depth : Nat) (cs more : List Char) :
    depthAfter? depth (cs ++ more)
      = (depthAfter? depth cs).bind fun next => depthAfter? next more :=
  List.foldlM_append

/-- Only a closing brace has no depth behind it, where no brace is open. -/
theorem eq_zero_of_depthBehind? (h : depthBehind? depth c = none) : depth = 0 := by
  unfold depthBehind? at h
  split at h
  · split at h
    · assumption
    · contradiction
  · split at h <;> contradiction

theorem depthBehind?_add (h : depthBehind? depth c = some next) (outer : Nat) :
    depthBehind? (depth + outer) c = some (next + outer) := by
  unfold depthBehind? at h ⊢
  by_cases hClose : c = '\x7d'
  · rw [if_pos hClose] at h ⊢
    by_cases hDepth : depth = 0
    · rw [if_pos hDepth] at h
      contradiction
    · rw [if_neg hDepth] at h
      obtain rfl := Option.some.inj h
      rw [if_neg (by omega)]
      congr 1
      omega
  · rw [if_neg hClose] at h ⊢
    split at h
    · rename_i hOpen
      obtain rfl := Option.some.inj h
      rw [if_pos hOpen]
      congr 1
      omega
    · rename_i hOpen
      obtain rfl := Option.some.inj h
      rw [if_neg hOpen]

/-- Braces that are open around a text make no difference to what it closes. -/
theorem depthAfter?_add (h : depthAfter? depth cs = some next) (outer : Nat) :
    depthAfter? (depth + outer) cs = some (next + outer) := by
  induction cs generalizing depth with
  | nil =>
    obtain rfl : depth = next := Option.some.inj h
    rfl
  | cons c cs ih =>
    rw [depthAfter?_cons] at h ⊢
    obtain ⟨between, hBetween, hRest⟩ := Option.bind_eq_some_iff.1 h
    rw [depthBehind?_add hBetween]
    exact ih hRest

theorem isPart_nil : IsPart 0 [] where
  closes := rfl
  commas front behind hParts := by simp at hParts

/-- A part is a character that is no comma of its own, and what is a part behind it. -/
theorem isPart_cons_iff :
    IsPart depth (c :: cs) ↔
      ∃ next, depthBehind? depth c = some next ∧ ¬(c = ',' ∧ depth = 0) ∧ IsPart next cs := by
  constructor
  · intro h
    have hCloses := h.closes
    rw [depthAfter?_cons] at hCloses
    obtain ⟨next, hNext, hRest⟩ := Option.bind_eq_some_iff.1 hCloses
    refine ⟨next, hNext, ?_, hRest, ?_⟩
    · rintro ⟨rfl, rfl⟩
      exact h.commas [] cs rfl rfl
    · rintro front behind rfl hFront
      refine h.commas (c :: front) behind rfl ?_
      rw [depthAfter?_cons, hNext]
      exact hFront
  · rintro ⟨next, hNext, hOwn, hRest⟩
    constructor
    · rw [depthAfter?_cons, hNext]
      exact hRest.closes
    · intro front behind hParts hFront
      cases front with
      | nil => exact hOwn ⟨(List.cons.inj hParts).1, Option.some.inj hFront⟩
      | cons d front =>
        obtain ⟨rfl, rfl⟩ := List.cons.inj hParts
        rw [depthAfter?_cons, hNext] at hFront
        exact hRest.commas front behind rfl hFront

instance decidableIsPart : (depth : Nat) → (cs : List Char) → Decidable (IsPart depth cs)
  | 0, [] => isTrue isPart_nil
  | _ + 1, [] => isFalse fun h => Nat.succ_ne_zero _ (Option.some.inj h.closes)
  | depth, c :: cs =>
    match h : depthBehind? depth c with
    | none => isFalse fun hPart => by
        obtain ⟨next, hNext, -⟩ := isPart_cons_iff.1 hPart
        rw [h] at hNext
        contradiction
    | some next =>
      have := decidableIsPart next cs
      decidable_of_iff (¬(c = ',' ∧ depth = 0) ∧ IsPart next cs) <| by
        rw [isPart_cons_iff, h]
        simp only [Option.some.injEq, exists_eq_left']

-- ---------------------------------------------------------------------------
-- Groups
-- ---------------------------------------------------------------------------

namespace Closed

/-- The group with a text in front of its first part. -/
def prepend (cs : List Char) (closed : Closed) : Closed :=
  { closed with first := cs ++ closed.first }

/-- The group with more text behind it. -/
def extend (closed : Closed) (more : List Char) : Closed :=
  { closed with after := closed.after ++ more }

end Closed

/-- A group ends at a brace that none is open for. Any other character belongs to its first part,
unless it is a comma of its own. -/
theorem closeGroup?_cons (depth : Nat) (c : Char) (cs : List Char) :
    closeGroup? depth (c :: cs) =
      match depthBehind? depth c with
      | none => some ⟨[], [], cs⟩
      | some next =>
        (closeGroup? next cs).map (if c = ',' ∧ depth = 0 then Closed.startPart else .cons c) := by
  rw [closeGroup?.eq_def]
  dsimp only
  unfold depthBehind?
  by_cases hClose : c = '\x7d'
  · subst hClose
    cases depth <;> simp
  · rw [if_neg hClose, if_neg hClose]
    by_cases hOpen : c = '\x7b'
    · subst hOpen
      simp
    · rw [if_neg hOpen, if_neg hOpen]
      dsimp only
      split <;> rfl

/-- A part is read as part of the group that it stands in. -/
theorem closeGroup?_append_part (h : IsPart depth part) (rest : List Char) :
    closeGroup? depth (part ++ rest) = (closeGroup? 0 rest).map (.prepend part) := by
  induction part generalizing depth with
  | nil =>
    obtain rfl : depth = 0 := Option.some.inj h.closes
    cases hClosed : closeGroup? 0 rest <;> simp [hClosed, Closed.prepend]
  | cons c cs ih =>
    obtain ⟨next, hNext, hOwn, hRest⟩ := isPart_cons_iff.1 h
    rw [List.cons_append, closeGroup?_cons, hNext]
    dsimp only
    rw [if_neg hOwn, ih hRest, Option.map_map]
    rfl

/-- A group is read as the parts that it is made of. -/
theorem closeGroup?_joined {first : List Char} {others : List (List Char)}
    (h : ∀ part ∈ first :: others, IsPart 0 part) (after : List Char) :
    closeGroup? 0 (joined ',' (first :: others) ++ '\x7d' :: after)
      = some ⟨first, others, after⟩ := by
  induction others generalizing first with
  | nil =>
    rw [joined, closeGroup?_append_part (h first List.mem_cons_self), closeGroup?_cons]
    simp [depthBehind?, Closed.prepend]
  | cons second others ih =>
    have hRest := ih fun part hMem => h part (List.mem_cons_of_mem _ hMem)
    show closeGroup? 0 ((first ++ ',' :: joined ',' (second :: others)) ++ '\x7d' :: after) = _
    rw [List.append_assoc, closeGroup?_append_part (h first List.mem_cons_self), List.cons_append,
      closeGroup?_cons]
    simp [depthBehind?, hRest, Closed.startPart, Closed.parts, Closed.prepend]

/-- What is read as the parts of a group are parts. -/
theorem isPart_of_closeGroup? (h : closeGroup? depth cs = some closed) :
    IsPart depth closed.first ∧ ∀ part ∈ closed.others, IsPart 0 part := by
  induction cs generalizing depth closed with
  | nil => simp [closeGroup?] at h
  | cons c cs ih =>
    rw [closeGroup?_cons] at h
    cases hNext : depthBehind? depth c with
    | none =>
      rw [hNext] at h
      obtain rfl := Option.some.inj h
      obtain rfl := eq_zero_of_depthBehind? hNext
      exact ⟨isPart_nil, fun part hMem => absurd hMem List.not_mem_nil⟩
    | some next =>
      rw [hNext] at h
      obtain ⟨inner, hInner, rfl⟩ := Option.map_eq_some_iff.1 h
      obtain ⟨hFirst, hOthers⟩ := ih hInner
      split
      · rename_i hComma
        obtain ⟨rfl, rfl⟩ := hComma
        obtain rfl : 0 = next := Option.some.inj hNext
        refine ⟨isPart_nil, fun part hMem => ?_⟩
        rcases List.mem_cons.1 hMem with rfl | hMem
        · exact hFirst
        · exact hOthers part hMem
      · rename_i hOwn
        exact ⟨isPart_cons_iff.2 ⟨next, hNext, hOwn, hFirst⟩, hOthers⟩

/-- Text behind a group is left over. -/
theorem closeGroup?_append (h : closeGroup? depth cs = some closed) (more : List Char) :
    closeGroup? depth (cs ++ more) = some (closed.extend more) := by
  induction cs generalizing depth closed with
  | nil => simp [closeGroup?] at h
  | cons c cs ih =>
    rw [closeGroup?_cons] at h
    rw [List.cons_append, closeGroup?_cons]
    cases hNext : depthBehind? depth c with
    | none =>
      rw [hNext] at h
      obtain rfl := Option.some.inj h
      rfl
    | some next =>
      rw [hNext] at h
      obtain ⟨inner, hInner, rfl⟩ := Option.map_eq_some_iff.1 h
      dsimp only
      rw [ih hInner]
      split <;> rfl

/-- Whether a group is closed depends on how many braces are open where a front part of the text
ends, if it is not closed in that part. -/
theorem isSome_closeGroup?_append (depth : Nat) (cs rest : List Char) :
    (closeGroup? depth (cs ++ rest)).isSome
      = (depthAfter? depth cs).elim true fun next => (closeGroup? next rest).isSome := by
  induction cs generalizing depth with
  | nil => rfl
  | cons c cs ih =>
    rw [List.cons_append, closeGroup?_cons, depthAfter?_cons]
    cases depthBehind? depth c with
    | none => rfl
    | some next => simp [ih]

/-- A text that closes what is open before it makes no difference to what follows. -/
theorem isSome_closeGroup?_balanced (h : Balanced cs) (depth : Nat) (rest : List Char) :
    (closeGroup? depth (cs ++ rest)).isSome = (closeGroup? depth rest).isSome := by
  have hDepth : depthAfter? depth cs = some depth := by simpa using depthAfter?_add h depth
  rw [isSome_closeGroup?_append, hDepth]
  rfl

theorem balanced_joined {parts : List (List Char)} (h : ∀ part ∈ parts, Balanced part) :
    Balanced (joined ',' parts) := by
  induction parts with
  | nil => rfl
  | cons first others ih =>
    have hFirst : depthAfter? 0 first = some 0 := h first List.mem_cons_self
    cases others with
    | nil => exact hFirst
    | cons second others =>
      have hRest := ih fun part hMem => h part (List.mem_cons_of_mem _ hMem)
      show depthAfter? 0 (first ++ ',' :: joined ',' (second :: others)) = some 0
      rw [depthAfter?_append, hFirst]
      exact hRest

theorem balanced_of_closeGroup? (h : closeGroup? 0 cs = some closed) :
    Balanced (joined ',' closed.parts) := by
  obtain ⟨hFirst, hOthers⟩ := isPart_of_closeGroup? h
  refine balanced_joined fun part hMem => ?_
  rcases List.mem_cons.1 hMem with rfl | hMem
  · exact hFirst.closes
  · exact (hOthers part hMem).closes

/-- A group is closed if and only if a balanced text and a closing brace follow. -/
theorem isSome_closeGroup?_iff :
    (closeGroup? 0 cs).isSome ↔
      ∃ inside after, cs = inside ++ '\x7d' :: after ∧ Balanced inside := by
  constructor
  · intro h
    obtain ⟨closed, hClosed⟩ := Option.isSome_iff_exists.1 h
    exact ⟨_, closed.after, eq_of_closeGroup? hClosed, balanced_of_closeGroup? hClosed⟩
  · rintro ⟨inside, after, rfl, hInside⟩
    rw [isSome_closeGroup?_balanced hInside, closeGroup?_cons]
    rfl

-- ---------------------------------------------------------------------------
-- Texts that leave no brace open
-- ---------------------------------------------------------------------------

theorem eachClosed_nil : EachClosed [] := by
  intro front behind hParts
  simp at hParts

theorem eachClosed_cons_iff :
    EachClosed (c :: cs) ↔ (c = '\x7b' → (closeGroup? 0 cs).isSome) ∧ EachClosed cs := by
  constructor
  · intro h
    refine ⟨?_, fun front behind hParts => h (c :: front) behind (congrArg (c :: ·) hParts)⟩
    rintro rfl
    exact isSome_closeGroup?_iff.2 (h [] cs rfl)
  · rintro ⟨hHere, hRest⟩ front behind hParts
    cases front with
    | nil =>
      obtain ⟨hBrace, rfl⟩ := List.cons.inj hParts
      exact isSome_closeGroup?_iff.1 (hHere hBrace)
    | cons d front => exact hRest front behind (List.cons.inj hParts).2

instance decidableEachClosed : (cs : List Char) → Decidable (EachClosed cs)
  | [] => isTrue eachClosed_nil
  | _ :: cs =>
    have := decidableEachClosed cs
    decidable_of_iff' _ eachClosed_cons_iff

theorem EachClosed.of_append (h : EachClosed (cs ++ rest)) : EachClosed rest := by
  induction cs with
  | nil => exact h
  | cons c cs ih => exact ih (eachClosed_cons_iff.1 h).2

/-- A balanced text leaves no brace open. -/
theorem EachClosed.append_left (h : depthAfter? depth cs = some 0) (hRest : EachClosed rest) :
    EachClosed (cs ++ rest) := by
  induction cs generalizing depth with
  | nil => exact hRest
  | cons c cs ih =>
    rw [depthAfter?_cons] at h
    obtain ⟨next, hNext, hBehind⟩ := Option.bind_eq_some_iff.1 h
    refine eachClosed_cons_iff.2 ⟨?_, ih hBehind⟩
    rintro rfl
    -- the text behind closes this brace too, so by itself it closes one that is not open
    obtain rfl : depth + 1 = next := Option.some.inj hNext
    show (closeGroup? 0 (cs ++ rest)).isSome = true
    rw [isSome_closeGroup?_append]
    cases hAlone : depthAfter? 0 cs with
    | none => rfl
    | some left =>
      have hTogether := depthAfter?_add hAlone (depth + 1)
      rw [Nat.zero_add, hBehind] at hTogether
      simp at hTogether

/-- Text that closes as much may stand in place of another. -/
theorem EachClosed.congr_right {rest' : List Char} (h : EachClosed (cs ++ rest))
    (hCloses : ∀ depth, (closeGroup? depth rest').isSome = (closeGroup? depth rest).isSome)
    (hRest : EachClosed rest') : EachClosed (cs ++ rest') := by
  induction cs with
  | nil => exact hRest
  | cons c cs ih =>
    obtain ⟨hHere, hBehind⟩ := eachClosed_cons_iff.1 h
    refine eachClosed_cons_iff.2 ⟨fun hBrace => ?_, ih hBehind⟩
    calc (closeGroup? 0 (cs ++ rest')).isSome
        = (closeGroup? 0 (cs ++ rest)).isSome := by simp only [isSome_closeGroup?_append, hCloses]
      _ = true := hHere hBrace

theorem closeGroup?_of_groupBehindBrace? (h : groupBehindBrace? cs = some group) :
    group.before = [] ∧ closeGroup? 0 cs = some group.closed := by
  unfold groupBehindBrace? at h
  split at h
  · rename_i closed hClosed
    split at h
    · contradiction
    · obtain rfl := Option.some.inj h
      exact ⟨rfl, hClosed⟩
  · contradiction

/-- What is found as the parts of the first group are parts. -/
theorem isPart_of_firstGroup? (h : firstGroup? cs = some group) :
    ∀ part ∈ group.closed.parts, IsPart 0 part := by
  induction cs generalizing group with
  | nil => simp [firstGroup?] at h
  | cons c cs ih =>
    rw [firstGroup?] at h
    split at h
    · rename_i found hFound
      obtain rfl := Option.some.inj h
      split at hFound
      · obtain ⟨hFirst, hOthers⟩ :=
          isPart_of_closeGroup? (closeGroup?_of_groupBehindBrace? hFound).2
        intro part hMem
        rcases List.mem_cons.1 hMem with rfl | hMem
        · exact hFirst
        · exact hOthers part hMem
      · contradiction
    · obtain ⟨inner, hInner, rfl⟩ := Option.map_eq_some_iff.1 h
      intro part hMem
      exact ih hInner part hMem

/-- A part in place of its group leaves no brace open. -/
theorem EachClosed.withPart (h : EachClosed cs) (hGroup : firstGroup? cs = some group)
    (hPart : part ∈ group.closed.parts) : EachClosed (group.withPart part) := by
  have hParts := isPart_of_firstGroup? hGroup
  have hBalanced : Balanced part := (hParts part hPart).closes
  have hInside : Balanced ('\x7b' :: joined ',' group.closed.parts ++ ['\x7d']) := by
    have hShifted : depthAfter? 1 (joined ',' group.closed.parts) = some 1 := by
      simpa using depthAfter?_add (balanced_joined fun part hMem => (hParts part hMem).closes) 1
    show depthAfter? 0 ('\x7b' :: (joined ',' group.closed.parts ++ ['\x7d'])) = some 0
    rw [depthAfter?_cons]
    show depthAfter? 1 (joined ',' group.closed.parts ++ ['\x7d']) = some 0
    rw [depthAfter?_append, hShifted]
    rfl
  have hText : cs = group.before
      ++ (('\x7b' :: joined ',' group.closed.parts ++ ['\x7d']) ++ group.closed.after) := by
    rw [eq_of_firstGroup? hGroup]
    simp only [List.append_assoc, List.cons_append, List.nil_append]
  rw [hText] at h
  rw [Group.withPart, List.append_assoc]
  refine h.congr_right (fun depth => ?_) (.append_left hBalanced h.of_append.of_append)
  rw [isSome_closeGroup?_balanced hBalanced, isSome_closeGroup?_balanced hInside]

-- ---------------------------------------------------------------------------
-- The first group of two texts, one behind the other
-- ---------------------------------------------------------------------------

/-- The group with more text behind it. -/
def Group.extend (group : Group) (more : List Char) : Group :=
  { group with closed := group.closed.extend more }

/-- The group with a text in front of it. -/
def Group.prepend (cs : List Char) (group : Group) : Group :=
  { group with before := cs ++ group.before }

theorem Group.withPart_extend (group : Group) (more part : List Char) :
    (group.extend more).withPart part = group.withPart part ++ more :=
  (List.append_assoc ..).symm

theorem Group.withPart_prepend (group : Group) (cs part : List Char) :
    (group.prepend cs).withPart part = cs ++ group.withPart part := by
  simp only [withPart, prepend, List.append_assoc]

theorem groupBehindBrace?_append (h : closeGroup? 0 cs = some closed) (more : List Char) :
    groupBehindBrace? (cs ++ more) = (groupBehindBrace? cs).map fun group => group.extend more := by
  unfold groupBehindBrace?
  rw [h, closeGroup?_append h]
  dsimp only [Closed.extend]
  split <;> rfl

/-- The first group is found in the first text, or else in the second. -/
theorem firstGroup?_append (h : EachClosed cs) (more : List Char) :
    firstGroup? (cs ++ more) =
      match firstGroup? cs with
      | some group => some (group.extend more)
      | none => (firstGroup? more).map (.prepend cs) := by
  induction cs with
  | nil => cases hMore : firstGroup? more <;> simp [hMore, firstGroup?, Group.prepend]
  | cons c cs ih =>
    obtain ⟨hHere, hRest⟩ := eachClosed_cons_iff.1 h
    have hBrace : (if c = '\x7b' then groupBehindBrace? (cs ++ more) else none)
        = (if c = '\x7b' then groupBehindBrace? cs else none).map
            fun group => group.extend more := by
      split
      · rename_i hOpen
        obtain ⟨closed, hClosed⟩ := Option.isSome_iff_exists.1 (hHere hOpen)
        exact groupBehindBrace?_append hClosed more
      · rfl
    rw [List.cons_append, firstGroup?, firstGroup?, hBrace, ih hRest]
    cases if c = '\x7b' then groupBehindBrace? cs else none with
    | some group => rfl
    | none =>
      cases firstGroup? cs with
      | some group => rfl
      | none => cases firstGroup? more <;> rfl

-- ---------------------------------------------------------------------------
-- Alternatives
-- ---------------------------------------------------------------------------

/-- Without groups a text stands for itself. -/
theorem alternatives_of_none (h : firstGroup? cs = none) : alternatives cs = [cs] := by
  rw [alternatives]
  split
  · rfl
  · rename_i group hGroup
    rw [h] at hGroup
    contradiction

/-- A text stands for what it stands for with each part in place of its first group. -/
theorem alternatives_of_some (h : firstGroup? cs = some group) :
    alternatives cs
      = group.closed.parts.flatMap fun part => alternatives (group.withPart part) := by
  rw [alternatives]
  split
  · rename_i hNone
    rw [h] at hNone
    contradiction
  · rename_i found hFound
    obtain rfl := Option.some.inj (h.symm.trans hFound)
    have hPart (part : List Char) (h : part ∈ group.closed.parts) :
        alternatives (group.withPart (Subtype.mk part h).1) = alternatives (group.withPart part) :=
      rfl
    rw [List.flatMap_subtype hPart, List.unattach_attach]

/-- Behind a text without groups, which leaves no brace open, the alternatives are those of the
text behind. -/
theorem alternatives_append_of_none (h : EachClosed cs) (hNone : firstGroup? cs = none)
    (more : List Char) : alternatives (cs ++ more) = (alternatives more).map (cs ++ ·) := by
  induction more using alternatives.induct with
  | case1 more hMore =>
    have hGroup : firstGroup? (cs ++ more) = none := by
      rw [firstGroup?_append h, hNone, hMore]
      rfl
    rw [alternatives_of_none hGroup, alternatives_of_none hMore]
    rfl
  | case2 more group hMore ih =>
    have hGroup : firstGroup? (cs ++ more) = some (group.prepend cs) := by
      rw [firstGroup?_append h, hNone, hMore]
      rfl
    rw [alternatives_of_some hGroup, alternatives_of_some hMore, List.map_flatMap]
    refine List.flatMap_congr fun part hPart => ?_
    rw [Group.withPart_prepend]
    exact ih ⟨part, hPart⟩

/-- If each brace of the first text is closed in it, the alternatives of two texts, one behind the
other, are the pairs of their alternatives. -/
theorem alternatives_append (h : EachClosed cs) (more : List Char) :
    alternatives (cs ++ more)
      = (alternatives cs).flatMap fun front => (alternatives more).map (front ++ ·) := by
  induction cs using alternatives.induct with
  | case1 cs hNone =>
    rw [alternatives_append_of_none h hNone, alternatives_of_none hNone, List.flatMap_singleton]
  | case2 cs group hGroup ih =>
    have hBoth : firstGroup? (cs ++ more) = some (group.extend more) := by
      rw [firstGroup?_append h, hGroup]
    rw [alternatives_of_some hBoth, alternatives_of_some hGroup, List.flatMap_assoc]
    refine List.flatMap_congr fun part hPart => ?_
    rw [Group.withPart_extend]
    exact ih ⟨part, hPart⟩ (h.withPart hGroup hPart)

/-- The alternatives of a group are those of its parts. -/
theorem alternatives_group {parts : List (List Char)} (hMany : 2 ≤ parts.length)
    (h : ∀ part ∈ parts, IsPart 0 part) :
    alternatives ('\x7b' :: joined ',' parts ++ ['\x7d']) = parts.flatMap alternatives := by
  obtain ⟨first, rest, rfl⟩ := List.exists_cons_of_length_pos (l := parts) (by omega)
  obtain ⟨second, others, rfl⟩ :=
    List.exists_cons_of_length_pos (l := rest) (by rw [List.length_cons] at hMany; omega)
  have hGroup : firstGroup? ('\x7b' :: joined ',' (first :: second :: others) ++ ['\x7d'])
      = some ⟨[], first, second :: others, []⟩ := by
    rw [List.cons_append, firstGroup?, if_pos rfl, groupBehindBrace?, closeGroup?_joined h]
    rfl
  rw [alternatives_of_some hGroup]
  refine List.flatMap_congr fun part _ => ?_
  rw [Group.withPart, List.nil_append, List.append_nil]

/-- No group is left in an alternative. -/
theorem firstGroup?_of_mem_alternatives (h : part ∈ alternatives cs) : firstGroup? part = none := by
  induction cs using alternatives.induct with
  | case1 cs hNone =>
    rw [alternatives_of_none hNone] at h
    obtain rfl := List.mem_singleton.1 h
    exact hNone
  | case2 cs group hGroup ih =>
    rw [alternatives_of_some hGroup] at h
    obtain ⟨inner, hInner, hMem⟩ := List.mem_flatMap.1 h
    exact ih ⟨inner, hInner⟩ hMem

/-- An alternative stands for itself. -/
theorem alternatives_of_mem (h : part ∈ alternatives cs) : alternatives part = [part] :=
  alternatives_of_none (firstGroup?_of_mem_alternatives h)

end Relocation.Glob

import Relocation.Text.Segments

/-!
# Alternatives in braces

A group in braces with a comma in it stands for its parts, one after the other. The first such
group is replaced by each of its parts, and the groups that are left are treated likewise. A brace
that is never closed stands for itself, and so does a group without a comma of its own.

## Results

* `eq_of_closeGroup?`, `eq_of_firstGroup?`: a group and what stands around it make up the text;
* `length_lt_of_firstGroup?`: a text with a part in place of its first group is shorter, so the
  replacing ends.
-/

namespace Relocation.Glob

open Text

-- ---------------------------------------------------------------------------
-- Groups
-- ---------------------------------------------------------------------------

/-- The parts of a group, of which there is at least one, and what follows the group. -/
structure Closed where
  first : List Char
  others : List (List Char)
  after : List Char
  deriving Repr, DecidableEq, Inhabited

namespace Closed

/-- The parts of the group. -/
def parts (closed : Closed) : List (List Char) := closed.first :: closed.others

/-- The group with a character in front of its first part. -/
def cons (c : Char) (closed : Closed) : Closed := { closed with first := c :: closed.first }

/-- The group with an empty part in front of the others. -/
def startPart (closed : Closed) : Closed := ⟨[], closed.parts, closed.after⟩

end Closed

/-- Reads a group behind its opening brace, while `depth` braces are open inside it. Commas inside
inner braces are not its own. -/
def closeGroup? : (depth : Nat) → List Char → Option Closed
  | _, [] => none
  | depth, c :: cs =>
    if c = '\x7d' then
      match depth with
      | 0 => some ⟨[], [], cs⟩
      | depth + 1 => (closeGroup? depth cs).map (Closed.cons c)
    else if c = '\x7b' then (closeGroup? (depth + 1) cs).map (Closed.cons c)
    else if c = ',' ∧ depth = 0 then (closeGroup? depth cs).map Closed.startPart
    else (closeGroup? depth cs).map (Closed.cons c)

/-- A group of alternatives and what stands before it. -/
structure Group where
  before : List Char
  closed : Closed
  deriving Repr, DecidableEq, Inhabited

/-- The text with a part in place of the group. -/
def Group.withPart (group : Group) (part : List Char) : List Char :=
  group.before ++ part ++ group.closed.after

/-- The group that starts behind an opening brace, if it has more parts than one. -/
def groupBehindBrace? (cs : List Char) : Option Group :=
  match closeGroup? 0 cs with
  | some closed => if closed.others = [] then none else some ⟨[], closed⟩
  | none => none

/-- The first group of alternatives in a text. -/
def firstGroup? : List Char → Option Group
  | [] => none
  | c :: cs =>
    match if c = '\x7b' then groupBehindBrace? cs else none with
    | some group => some group
    | none => (firstGroup? cs).map fun group => { group with before := c :: group.before }

-- ---------------------------------------------------------------------------
-- Where a group stands
-- ---------------------------------------------------------------------------

theorem joined_parts_cons (separator c : Char) (closed : Closed) :
    joined separator (closed.cons c).parts = c :: joined separator closed.parts :=
  joined_consFirst separator c closed.parts

theorem joined_parts_startPart (separator : Char) (closed : Closed) :
    joined separator closed.startPart.parts = separator :: joined separator closed.parts := rfl

/-- A group and what follows it make up the text behind the opening brace. -/
theorem eq_of_closeGroup? {depth : Nat} {cs : List Char} {closed : Closed}
    (h : closeGroup? depth cs = some closed) :
    cs = joined ',' closed.parts ++ '\x7d' :: closed.after := by
  induction cs generalizing depth closed with
  | nil => simp [closeGroup?] at h
  | cons c cs ih =>
    have hcons {d : Nat} (hmap : (closeGroup? d cs).map (Closed.cons c) = some closed) :
        c :: cs = joined ',' closed.parts ++ '\x7d' :: closed.after := by
      obtain ⟨inner, hinner, rfl⟩ := Option.map_eq_some_iff.1 hmap
      rw [joined_parts_cons, ih hinner]
      rfl
    rw [closeGroup?.eq_def] at h
    dsimp only at h
    split at h
    · rename_i hc
      subst hc
      split at h
      · obtain rfl := Option.some.inj h
        rfl
      · exact hcons h
    · split at h
      · exact hcons h
      · split at h
        · rename_i hc
          obtain ⟨inner, hinner, rfl⟩ := Option.map_eq_some_iff.1 h
          rw [joined_parts_startPart, hc.1, ih hinner]
          rfl
        · exact hcons h

/-- A group and what stands around it make up the text. -/
theorem eq_of_firstGroup? {cs : List Char} {group : Group} (h : firstGroup? cs = some group) :
    cs = group.before ++ '\x7b' :: joined ',' group.closed.parts
      ++ '\x7d' :: group.closed.after := by
  induction cs generalizing group with
  | nil => simp [firstGroup?] at h
  | cons c cs ih =>
    rw [firstGroup?] at h
    split at h
    · rename_i found hfound
      obtain rfl := Option.some.inj h
      split at hfound
      · rename_i hc
        rw [groupBehindBrace?] at hfound
        split at hfound
        · rename_i closed hclosed
          split at hfound
          · simp at hfound
          · obtain rfl := Option.some.inj hfound
            rw [hc, eq_of_closeGroup? hclosed]
            rfl
        · simp at hfound
      · simp at hfound
    · obtain ⟨inner, hinner, rfl⟩ := Option.map_eq_some_iff.1 h
      rw [ih hinner]
      rfl

theorem length_le_length_joined {separator : Char} {list : List (List Char)} {part : List Char}
    (h : part ∈ list) : part.length ≤ (joined separator list).length := by
  induction list with
  | nil => simp at h
  | cons first rest ih =>
    match rest with
    | [] =>
      obtain rfl := List.mem_singleton.1 h
      exact Nat.le_refl _
    | second :: others =>
      have hjoined : joined separator (first :: second :: others) =
          first ++ separator :: joined separator (second :: others) := rfl
      rw [hjoined, List.length_append, List.length_cons]
      rcases List.mem_cons.1 h with rfl | h
      · omega
      · have := ih h
        omega

/-- A text with a part in place of its first group is shorter. -/
theorem length_lt_of_firstGroup? {cs : List Char} {group : Group}
    (h : firstGroup? cs = some group) {part : List Char} (hpart : part ∈ group.closed.parts) :
    (group.withPart part).length < cs.length := by
  have hlength := congrArg List.length (eq_of_firstGroup? h)
  have hle := @length_le_length_joined ',' _ _ hpart
  simp only [Group.withPart, List.length_append, List.length_cons] at *
  omega

-- ---------------------------------------------------------------------------
-- Alternatives
-- ---------------------------------------------------------------------------

/-- The alternatives that a text stands for. -/
def alternatives (cs : List Char) : List (List Char) :=
  match _h : firstGroup? cs with
  | none => [cs]
  | some group => group.closed.parts.attach.flatMap fun part => alternatives (group.withPart part.1)
termination_by cs.length
decreasing_by exact length_lt_of_firstGroup? _h part.2

end Relocation.Glob

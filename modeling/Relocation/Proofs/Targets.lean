import Mathlib.Data.List.Nodup
import Relocation.Rules

/-!
# Where the rules lead

A path that moves takes one of three ways: the core path becomes the bare destination, a renamed
path takes its new name, and any other path keeps its remainder in the folder of the destination.
The remainder is free, and may start with the scope itself. So whether a target can move again, and
whether two paths can meet in one target, depends on how the three kinds of targets start.

## Results

* `Rules.relocate?_cases`: the three ways in which a path moves;
* `Rules.relocate?_eq_none_of_moved`: a target stays if the table leaves its scope;
* `Rules.eq_of_relocate?_eq_some`: no two paths have one target if the table tells them apart.
-/

namespace Relocation.Rules

variable {rules : Rules} {path target : String}

-- ---------------------------------------------------------------------------
-- The ways in which a path moves
-- ---------------------------------------------------------------------------

/-- What the paths in the destination start with. -/
def folder (rules : Rules) : List Char := rules.destination.toList ++ ['/']

theorem remainder?_eq_some_iff {remainder : String} :
    rules.remainder? path = some remainder ↔
      path.toList = rules.scope.toList ++ remainder.toList := by
  rw [remainder?, Option.map_eq_some_iff]
  constructor
  · rintro ⟨rest, hRest, rfl⟩
    rw [String.toList_ofList]
    exact (List.isPrefixOf?_eq_some_iff_append_eq.1 hRest).symm
  · intro hPath
    exact ⟨remainder.toList, List.isPrefixOf?_eq_some_iff_append_eq.2 hPath.symm,
      String.ofList_toList⟩

/-- A path is outside the scope if it does not start with it. -/
theorem remainder?_eq_none_iff :
    rules.remainder? path = none ↔ ¬rules.scope.toList <+: path.toList := by
  rw [Option.eq_none_iff_forall_ne_some]
  constructor
  · rintro hNone ⟨rest, hRest⟩
    exact hNone (String.ofList rest)
      (remainder?_eq_some_iff.2 (by rw [String.toList_ofList, hRest]))
  · intro hOutside remainder hRemainder
    exact hOutside ⟨remainder.toList, (remainder?_eq_some_iff.1 hRemainder).symm⟩

/-- A new name stands in the table beside the path. -/
theorem mem_renames_of_renamed? (h : rules.renamed? path = some target) :
    (path, target) ∈ rules.renames := by
  obtain ⟨⟨key, name⟩, hFind, rfl⟩ := Option.map_eq_some_iff.1 h
  have hKey := List.find?_some hFind
  obtain rfl : key = path := eq_of_beq hKey
  exact List.mem_of_find?_eq_some hFind

/-- A path that moves is in the scope, and takes one of three ways. -/
theorem relocate?_cases (h : rules.relocate? path = some target) :
    ∃ rest, path.toList = rules.scope.toList ++ rest ∧
      (path = rules.core ∧ target = rules.destination ∨ (path, target) ∈ rules.renames ∨
        target.toList = rules.folder ++ rest) := by
  unfold relocate? at h
  cases hRemainder : rules.remainder? path with
  | none =>
    rw [hRemainder] at h
    contradiction
  | some remainder =>
    refine ⟨remainder.toList, remainder?_eq_some_iff.1 hRemainder, ?_⟩
    rw [hRemainder] at h
    dsimp only at h
    split at h
    · contradiction
    split at h
    · rename_i hCore
      exact .inl ⟨hCore, (Option.some.inj h).symm⟩
    cases hRenamed : rules.renamed? path with
    | some name =>
      rw [hRenamed] at h
      obtain rfl := Option.some.inj h
      exact .inr (.inl (mem_renames_of_renamed? hRenamed))
    | none =>
      rw [hRenamed] at h
      obtain rfl := Option.some.inj h
      right; right
      rw [String.toList_append, String.toList_append]
      rfl

-- ---------------------------------------------------------------------------
-- Targets outside the scope
-- ---------------------------------------------------------------------------

/-- The table leaves its scope: the scope and the folder of the destination do not start one with
the other, and no new name is in the scope. -/
structure LeavesScope (rules : Rules) : Prop where
  scope_not_start : ¬rules.scope.toList <+: rules.folder
  folder_not_start : ¬rules.folder <+: rules.scope.toList
  names_outside : ∀ entry ∈ rules.renames, ¬rules.scope.toList <+: entry.2.toList

/-- What such a table leads to is outside its scope. -/
theorem LeavesScope.remainder?_eq_none (h : rules.LeavesScope)
    (hMoves : rules.relocate? path = some target) : rules.remainder? target = none := by
  rw [remainder?_eq_none_iff]
  obtain ⟨rest, -, ⟨-, rfl⟩ | hName | hTarget⟩ := relocate?_cases hMoves
  · intro hScope
    exact h.scope_not_start (hScope.trans (List.prefix_append _ _))
  · exact h.names_outside _ hName
  · -- of two texts that the target starts with, one starts with the other
    rw [hTarget]
    intro hScope
    rcases List.prefix_or_prefix_of_prefix hScope (List.prefix_append _ _) with hFolder | hBehind
    · exact h.scope_not_start hFolder
    · exact h.folder_not_start hBehind

theorem leavesScope_monocdk : monocdk.LeavesScope := ⟨by decide, by decide, by decide⟩

/-- **Targets stay.** A path that a table leads to is not led on: relocating a target gives
nothing, whichever of the rules has made it, the one for the bare scope, a new name, or the folder
of the destination with any remainder.

The tables are those that leave their scope (`LeavesScope`): the scope and the folder of the
destination do not start one with the other, and no new name is in the scope. The built-in table
is one of them. -/
theorem relocate?_eq_none_of_moved :
    monocdk.LeavesScope ∧ ∀ rules : Rules, rules.LeavesScope → ∀ path target : String,
      rules.relocate? path = some target → rules.relocate? target = none := by
  refine ⟨leavesScope_monocdk, ?_⟩
  intro rules hLeaves path target hMoves
  exact relocate?_eq_none_iff.2 (.inl (hLeaves.remainder?_eq_none hMoves))

/-- A path that carries the scope a second time still moves only once. -/
theorem relocate?_nested :
    monocdk.relocate? "@aws-cdk/@aws-cdk/core" = some "monocdk/@aws-cdk/core" ∧
      monocdk.relocate? "monocdk/@aws-cdk/core" = none := by
  have hMoves : monocdk.relocate? "@aws-cdk/@aws-cdk/core" = some "monocdk/@aws-cdk/core" := by
    decide
  exact ⟨hMoves, relocate?_eq_none_of_moved.2 _ relocate?_eq_none_of_moved.1 _ _ hMoves⟩

-- ---------------------------------------------------------------------------
-- Targets that tell their paths apart
-- ---------------------------------------------------------------------------

/-- The table tells its paths apart: the new names differ from each other, and are neither the bare
destination nor in its folder. -/
structure TellsApart (rules : Rules) : Prop where
  names_nodup : (rules.renames.map Prod.snd).Nodup
  names_not_bare : ∀ entry ∈ rules.renames, entry.2 ≠ rules.destination
  names_not_in_folder : ∀ entry ∈ rules.renames, ¬rules.folder <+: entry.2.toList

/-- The path that leads to a target. -/
def origin? (rules : Rules) (target : String) : Option String :=
  if target = rules.destination then some rules.core
  else
    match rules.folder.isPrefixOf? target.toList with
    | some rest => some (String.ofList (rules.scope.toList ++ rest))
    | none => (rules.renames.find? fun entry => entry.2 == target).map Prod.fst

/-- The bare destination is not in its own folder. -/
theorem toList_destination_ne (rules : Rules) (rest : List Char) :
    rules.destination.toList ≠ rules.folder ++ rest := by
  intro hSame
  have hLength := congrArg List.length hSame
  simp only [folder, List.length_append, List.length_singleton] at hLength
  omega

/-- A new name leads back to its path. -/
theorem TellsApart.find?_renames (h : rules.TellsApart) (hName : (path, target) ∈ rules.renames) :
    (rules.renames.find? fun entry => entry.2 == target) = some (path, target) := by
  cases hFind : rules.renames.find? fun entry => entry.2 == target with
  | none => exact absurd (beq_self_eq_true target) (List.find?_eq_none.1 hFind _ hName)
  | some entry =>
    have hTarget := List.find?_some hFind
    have hMem := List.mem_of_find?_eq_some hFind
    rw [List.inj_on_of_nodup_map h.names_nodup hMem hName (eq_of_beq hTarget)]

/-- Where a path has moved to, it can be told where it was. -/
theorem TellsApart.origin?_of_moved (h : rules.TellsApart)
    (hMoves : rules.relocate? path = some target) : rules.origin? target = some path := by
  obtain ⟨rest, hPath, ⟨rfl, rfl⟩ | hName | hTarget⟩ := relocate?_cases hMoves
  · exact if_pos rfl
  · have hFolder : rules.folder.isPrefixOf? target.toList = none := by
      rw [Option.eq_none_iff_forall_ne_some]
      intro rest hRest
      exact h.names_not_in_folder _ hName ⟨rest, List.isPrefixOf?_eq_some_iff_append_eq.1 hRest⟩
    rw [origin?, if_neg (h.names_not_bare _ hName), hFolder]
    dsimp only
    rw [h.find?_renames hName]
    rfl
  · have hBare : target ≠ rules.destination := by
      rintro rfl
      exact rules.toList_destination_ne rest hTarget
    have hFolder : rules.folder.isPrefixOf? target.toList = some rest :=
      List.isPrefixOf?_eq_some_iff_append_eq.2 hTarget.symm
    rw [origin?, if_neg hBare, hFolder]
    dsimp only
    rw [← hPath, String.ofList_toList]

/-- **No two paths are merged.** Two paths that a table leads to one target are the same path, by
whichever of the rules each of them is led there. Old names may be listed more than once, and may
be exempt or equal to the bare scope.

The tables are those that tell their paths apart (`TellsApart`): the new names differ from each
other, and none of them is the destination or in its folder. The built-in table is one of them. -/
theorem eq_of_relocate?_eq_some :
    monocdk.TellsApart ∧ ∀ rules : Rules, rules.TellsApart → ∀ path path' target : String,
      rules.relocate? path = some target → rules.relocate? path' = some target →
        path = path' := by
  refine ⟨⟨by decide, by decide, by decide⟩, ?_⟩
  intro rules hApart path path' target hMoves hMoves'
  have hOrigin := hApart.origin?_of_moved hMoves
  have hOrigin' := hApart.origin?_of_moved hMoves'
  exact Option.some.inj (hOrigin.symm.trans hOrigin')

/-- A table with two names for one path, of which the second is never given. -/
def twiceNamed : Rules :=
  { monocdk with renames := [("@aws-cdk/assert", "first"), ("@aws-cdk/assert", "second")] }

/-- Two names for one path do not keep the table from telling its paths apart. -/
theorem eq_of_twiceNamed :
    twiceNamed.TellsApart ∧ twiceNamed.relocate? "@aws-cdk/assert" = some "first" ∧
      "@aws-cdk/assert" = twiceNamed.scope ++ "assert" := by
  have hApart : twiceNamed.TellsApart := ⟨by decide, by decide, by decide⟩
  have hMoves : twiceNamed.relocate? "@aws-cdk/assert" = some "first" := by decide
  have hMoves' : twiceNamed.relocate? (twiceNamed.scope ++ "assert") = some "first" := by decide
  exact ⟨hApart, hMoves, eq_of_relocate?_eq_some.2 _ hApart _ _ _ hMoves hMoves'⟩

end Relocation.Rules

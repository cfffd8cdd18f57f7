import Relocation.Path

/-!
# File trees

A file tree is a directory with everything in it, and a place in it that is the working directory.
A location names a node by the names that lead to it from the root; no link is ever on that way.

## Results

* `Node.at?_modifyAt`: a change at a location shows there;
* `Entries.find?_modify_of_ne`: a change of one entry leaves the others as they are.
-/

namespace Relocation

open Text

-- ---------------------------------------------------------------------------
-- Nodes
-- ---------------------------------------------------------------------------

mutual

/-- What a name in a directory stands for. -/
inductive Node where
  | file (bytes : ByteArray)
  /-- A symbolic link to a path. -/
  | link (target : Path)
  | directory (entries : Entries)

/-- The entries of a directory, in the order of their names. -/
inductive Entries where
  | none
  | entry (name : Name) (node : Node) (rest : Entries)

end

instance : Inhabited Entries := ⟨.none⟩
instance : Inhabited Node := ⟨.directory .none⟩

namespace Entries

/-- The node of a name. -/
def find? (name : Name) : Entries → Option Node
  | none => Option.none
  | entry found node rest => if found = name then some node else rest.find? name

/-- Gives a name a node, in place of the one that it has. -/
def set (name : Name) (node : Node) : Entries → Entries
  | none => entry name node none
  | entry found old rest =>
    if found = name then entry name node rest
    else if wordLe Nat.ble (name.map Char.toNat) (found.map Char.toNat) then
      entry name node (entry found old rest)
    else entry found old (rest.set name node)

/-- Removes a name. -/
def erase (name : Name) : Entries → Entries
  | none => none
  | entry found node rest => if found = name then rest else entry found node (rest.erase name)

/-- Changes the node of a name. -/
def modify (name : Name) (change : Node → Node) : Entries → Entries
  | none => none
  | entry found node rest =>
    if found = name then entry found (change node) rest
    else entry found node (rest.modify name change)

theorem find?_modify_self (name : Name) (change : Node → Node) (entries : Entries) :
    (entries.modify name change).find? name = (entries.find? name).map change := by
  induction entries using Entries.rec (motive_1 := fun _ => True) with
  | file | link | directory => trivial
  | none => rfl
  | entry found node rest _ ih =>
    rw [modify, find?]
    split
    · rename_i h
      rw [find?, if_pos h, Option.map_some]
    · rename_i h
      rw [find?, if_neg h, ih]

/-- A change of one entry leaves the others as they are. -/
theorem find?_modify_of_ne {name other : Name} (change : Node → Node) (entries : Entries)
    (hne : other ≠ name) : (entries.modify name change).find? other = entries.find? other := by
  induction entries using Entries.rec (motive_1 := fun _ => True) with
  | file | link | directory => trivial
  | none => rfl
  | entry found node rest _ ih =>
    rw [modify]
    split
    · rename_i h
      rw [find?, find?, if_neg (by rw [h]; exact hne.symm), if_neg (by rw [h]; exact hne.symm)]
    · rw [find?, find?, ih]

end Entries

/-- The names that lead from the root to a node. -/
abbrev Location := List Name

namespace Node

/-- Whether the node is a directory. -/
def isDirectory : Node → Bool
  | directory _ => true
  | _ => false

/-- The node at a location inside this one. -/
def at? : Node → Location → Option Node
  | node, [] => some node
  | directory entries, name :: rest => (entries.find? name).bind fun node => node.at? rest
  | _, _ :: _ => none

/-- Changes the node at a location inside this one. -/
def modifyAt (change : Node → Node) : Location → Node → Node
  | [], node => change node
  | name :: rest, directory entries => directory (entries.modify name (modifyAt change rest))
  | _ :: _, node => node

/-- A change at a location shows there. -/
theorem at?_modifyAt (change : Node → Node) (location : Location) (node : Node) :
    (node.modifyAt change location).at? location = (node.at? location).map change := by
  induction location generalizing node with
  | nil => rfl
  | cons name rest ih =>
    match node with
    | directory entries =>
      rw [modifyAt, at?, at?, Entries.find?_modify_self]
      cases entries.find? name with
      | none => rfl
      | some inner => exact ih inner
    | file _ => rfl
    | link _ => rfl

end Node

-- ---------------------------------------------------------------------------
-- Trees
-- ---------------------------------------------------------------------------

/-- A file tree with a working directory. -/
structure FileTree where
  root : Node
  workingDirectory : Location

namespace FileTree

/-- The node at a location. -/
def at? (tree : FileTree) (location : Location) : Option Node := tree.root.at? location

/-- Changes the node at a location. -/
def modifyAt (tree : FileTree) (location : Location) (change : Node → Node) : FileTree :=
  { tree with root := tree.root.modifyAt change location }

end FileTree

-- ---------------------------------------------------------------------------
-- Files
-- ---------------------------------------------------------------------------

mutual

/-- The files in a node, each with its location. -/
def Node.files : Node → List (Location × ByteArray)
  | .file bytes => [([], bytes)]
  | .link _ => []
  | .directory entries => entries.files

/-- The files in the entries of a directory. -/
def Entries.files : Entries → List (Location × ByteArray)
  | .none => []
  | .entry name node rest =>
    node.files.map (fun (location, bytes) => (name :: location, bytes)) ++ rest.files

end

end Relocation

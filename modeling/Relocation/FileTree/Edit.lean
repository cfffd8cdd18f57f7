import Relocation.FileTree.Access

/-!
# Editing a file tree

Nodes are put into a tree by path, with the directories on the way to them, and removed from it.
-/

namespace Relocation.FileTree

/-- A directory without entries. -/
def emptyDirectory : Node := .directory .none

/-- Gives a name in the directory at a location a node. -/
def setAt (tree : FileTree) (location : Location) (name : Name) (node : Node) : FileTree :=
  tree.modifyAt location fun
    | .directory entries => .directory (entries.set name node)
    | other => other

/-- Follows segments and makes the directories that are missing. -/
def makeDirectories (tree : FileTree) (from_ : Location) :
    List (List Char) → Except AccessFault (FileTree × Location)
  | [] => .ok (tree, from_)
  | segment :: rest =>
    match tree.follow linkLimit from_ [segment] with
    | .ok location => tree.makeDirectories location rest
    | .error .missing =>
      (tree.setAt from_ segment emptyDirectory).makeDirectories (from_ ++ [segment]) rest
    | .error fault => .error fault

/-- Where the segments of a path start. -/
def startOf (tree : FileTree) (path : Path) : Location :=
  if path.isAbsolute then [] else tree.workingDirectory

/-- Puts a node where the path says. A file goes where a link of that name leads to, a directory
that is there already stays, and a link is put only where nothing is. -/
def put (tree : FileTree) (path : Path) (node : Node) : Except AccessFault FileTree := do
  let segments := path.segments
  let (tree, parent) ← tree.makeDirectories (tree.startOf path) segments.dropLast
  let name := segments.getLastD []
  match tree.follow linkLimit parent [name], node with
  | .error .missing, _ => return tree.setAt parent name node
  | .error fault, _ => .error fault
  | .ok location, .file bytes =>
    match tree.at? location with
    | some (.file _) => return tree.modifyAt location fun _ => .file bytes
    | _ => .error .isADirectory
  | .ok location, .directory _ =>
    match tree.at? location with
    | some (.directory _) => return tree
    | _ => .error .notADirectory
  | .ok _, .link _ => .error .notADirectory

/-- Removes the node that the path names; a link is removed itself. -/
def remove (tree : FileTree) (path : Path) : Except AccessFault FileTree := do
  let segments := path.segments
  let parent ← tree.follow linkLimit (tree.startOf path) segments.dropLast
  let name := segments.getLastD []
  match tree.at? parent with
  | some (.directory entries) =>
    match entries.find? name with
    | some _ =>
      return tree.modifyAt parent fun
        | .directory entries => .directory (entries.erase name)
        | other => other
    | none => .error .missing
  | _ => .error .notADirectory

end Relocation.FileTree

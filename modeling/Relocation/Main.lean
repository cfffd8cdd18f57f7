import Relocation.CommandLine
import Relocation.FileTree.Edit

/-!
# The program

The command line works on a file tree. Before it is executed, the parts of the file system are
loaded that the expansion of its patterns can see, and of the files those bytes that it can read.
Afterwards the files are written whose bytes have changed.
-/

namespace Relocation.Program

/-- Loads the entries of a directory, without the bytes of its files and without the directories
that no walk enters, and tells which directories cannot be listed. A link is loaded with the place
that it leads to in the end. -/
partial def loadEntries (directory : Path) : IO (Entries × List Path) := do
  let listing? ← try some <$> (System.mkFilePath [directory.toString]).readDir catch _ => pure none
  let some listing := listing? | return (.none, [directory])
  let mut entries := Entries.none
  let mut closed := []
  for entry in listing do
    let name := entry.fileName.toList
    match (← entry.path.symlinkMetadata).type with
    | .file => entries := entries.set name (.file .empty)
    | .dir =>
      if name != dependencyDirectory then
        let (inner, closedInside) ← loadEntries (directory.descend [name])
        entries := entries.set name (.directory inner)
        closed := closed ++ closedInside
    | .symlink =>
      let target ← try IO.FS.realPath entry.path catch _ => pure entry.path
      entries := entries.set name (.link (.ofString target.toString))
    | .other => pure ()
  return (entries, closed)

/-- Puts a node into the tree if it has a place there. -/
def putIfPossible (tree : FileTree) (path : Path) (node : Node) : FileTree :=
  match tree.put path node with
  | .ok tree => tree
  | .error _ => tree

/-- Loads what a path names, if there is anything. -/
def loadStep (tree : FileTree) (path : Path) : IO FileTree := do
  if (tree.node? path).isSome then return tree
  let file := System.mkFilePath [path.toString]
  try
    let node : Node := if ← file.isDir then FileTree.emptyDirectory else .file .empty
    if (← file.symlinkMetadata).type == .symlink then
      let target := Path.ofString (← IO.FS.realPath file).toString
      return putIfPossible (putIfPossible tree target node) path (.link target)
    return putIfPossible tree path node
  catch _ => return tree

/-- Loads every step of a path, and what is below its end, with the directories there that cannot
be listed. -/
def load (tree : FileTree) (path : Path) : IO (FileTree × List Path) := do
  let segments := path.segments
  let mut tree := tree
  for count in [1:segments.length + 1] do
    let steps := Text.joined '/' (segments.take count)
    if steps != [] then tree ← loadStep tree ⟨steps⟩
  match tree.resolve path with
  | .error _ => return (tree, [])
  | .ok location =>
    match tree.at? location with
    | some (.directory _) =>
      let (entries, closed) ← loadEntries path
      return (tree.modifyAt location fun _ => .directory entries, closed)
    | _ => return (tree, [])

/-- The tree of the file system as far as the expansion of the patterns sees it, and the directories
in it that cannot be listed. -/
def loadTree (root : Path) (patterns : List (List Char)) : IO (FileTree × List Path) := do
  let place := Path.ofString (← IO.currentDir).toString
  let tree := putIfPossible ⟨FileTree.emptyDirectory, []⟩ place FileTree.emptyDirectory
  let location := place.segments.filter (· != [])
  let mut tree := { tree with workingDirectory := location }
  let mut closed := []
  for pattern in patterns do
    let (grown, closedThere) ← load tree (startOfExpansion root (plainForm pattern))
    tree := grown
    closed := closed ++ closedThere
  return (tree, closed)

/-- Loads the bytes of files. -/
def loadBytes (tree : FileTree) (paths : List Path) : IO FileTree :=
  paths.foldlM (fun tree path => do
    match tree.resolve path with
    | .ok location =>
      let bytes ← IO.FS.readBinFile path.toString
      return tree.modifyAt location fun _ => .file bytes
    | .error _ => return tree) tree

/-- Writes the files that have changed from one tree to the other. -/
def writeChanges (before after : FileTree) (paths : List Path) : IO Unit :=
  for path in paths do
    match before.node? path, after.node? path with
    | some (.file old), some (.file new) =>
      if old != new then IO.FS.writeBinFile path.toString new
    | _, _ => pure ()

/-- Executes a command line on the file system, and gives the status that it ends with. -/
def execute (arguments : List String) : IO UInt32 := do
  let patterns :=
    match CommandLine.read arguments with
    | .request request => request.patterns.map String.toList
    | _ => []
  let (shape, closed) ← loadTree CommandLine.root patterns
  let unlisted : Unlisted := fun path => if closed.contains path then some .denied else none
  let paths := patterns.flatMap fun pattern =>
    ((shape.expand CommandLine.root pattern unlisted).toOption).getD []
  let tree ← loadBytes shape paths
  let answer := CommandLine.execute tree arguments unlisted
  writeChanges tree answer.tree paths
  (← IO.getStdout).putStr answer.output
  (← IO.getStderr).putStr answer.errors
  return answer.status.toUInt32

end Relocation.Program

/-- The program. -/
def main (arguments : List String) : IO UInt32 := do
  try Relocation.Program.execute arguments
  catch fault =>
    (← IO.getStderr).putStr s!"error: {fault}\n"
    return 1

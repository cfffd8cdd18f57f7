import Relocation.FileTree.Access
import Relocation.Glob

/-!
# Expansion of file patterns

A pattern stands for files below a root. A plain path stands for the file that it leads to, if it
leads to one. A glob stands for the files that a walk finds and that it matches: by their names
alone if it holds no slash, else by their paths below the root. The walk starts where the part of
the glob ends that is a plain path. Files with type declarations only are left out. A pattern cannot
be expanded if it is malformed or if the walk comes to a directory that cannot be listed. Which
directories these are is not said by the tree.

A walk visits the files below a node and does not follow links. Directories of dependencies are
never entered, and neither are names that start with a dot, unless the walk asks for them. The
node itself is visited whatever its name is.

## Results

* `FileTree.expand_of_plain`, `FileTree.expand_of_file`: a plain path stands for the file that it
  leads to;
* `FileTree.expand_of_malformed`: a pattern that is no glob cannot be expanded.
-/

namespace Relocation

open Text

-- ---------------------------------------------------------------------------
-- Walks
-- ---------------------------------------------------------------------------

/-- The directories that no walk enters. -/
def dependencyDirectory : Name := "node_modules".toList

/-- Whether a walk visits an entry of a directory. -/
def isVisited (dotsToo : Bool) (name : Name) (node : Node) : Bool :=
  (dotsToo || name.head? != some '.') && !(node.isDirectory && name == dependencyDirectory)

mutual

/-- Where the directories are that a walk from a node lists, each before those inside it. -/
def Node.listed (dotsToo : Bool) : Node → List Location
  | .file _ => []
  | .link _ => []
  | .directory entries => [] :: entries.listed dotsToo

/-- Where the directories are that a walk through the entries of a directory lists. -/
def Entries.listed (dotsToo : Bool) : Entries → List Location
  | .none => []
  | .entry name node rest =>
    (if isVisited dotsToo name node then (node.listed dotsToo).map (name :: ·) else [])
      ++ rest.listed dotsToo

end

mutual

/-- Where the files are that a walk from a node finds. -/
def Node.walk (dotsToo : Bool) : Node → List Location
  | .file _ => [[]]
  | .link _ => []
  | .directory entries => entries.walk dotsToo

/-- Where the files are that a walk through the entries of a directory finds. -/
def Entries.walk (dotsToo : Bool) : Entries → List Location
  | .none => []
  | .entry name node rest =>
    (if isVisited dotsToo name node then (node.walk dotsToo).map (name :: ·) else [])
      ++ rest.walk dotsToo

end

-- ---------------------------------------------------------------------------
-- Expansion
-- ---------------------------------------------------------------------------

/-- The glob of files with type declarations only: any name that ends in `.d.ts`. -/
def declarationGlob : Glob := ⟨[[.anySegments, .anyText] ++ ".d.ts".toList.map .literal]⟩

/-- Whether the path is left out. -/
def isLeftOut (path : List Char) : Bool := declarationGlob.isMatch path

/-- A pattern with slashes only and without a dot and a slash in front. -/
def plainForm (pattern : List Char) : List Char :=
  match withSlashes pattern with
  | '.' :: '/' :: rest => rest
  | pattern => pattern

/-- The segments in front of a glob that are plain path, as one text. -/
def walkBase (pattern : List Char) : List Char :=
  let plain := (segments '/' pattern).dropLast.takeWhile fun segment => !Glob.hasMagic segment
  match joined '/' plain with
  | [] => if pattern.head? = some '/' then ['/'] else []
  | base => base

/-- Whether the glob asks for names that start with a dot: one of its segments does. -/
def asksForDots (pattern : List Char) : Bool :=
  pattern.head? == some '.' || (splitAtFirst? ['/', '.'] pattern).isSome

/-- Whether a file is matched by its name alone. -/
def matchesNames (pattern : List Char) : Bool := !pattern.contains '/'

/-- Why a pattern cannot be expanded. -/
inductive ExpansionFault where
  /-- The pattern is no glob. -/
  | malformed (pattern : List Char) (fault : Glob.PatternFault)
  /-- The walk comes to a directory that cannot be listed. -/
  | walk (pattern : List Char) (directory : Path) (fault : AccessFault)
  deriving Repr, DecidableEq, Inhabited

/-- The text of a pattern that cannot be expanded. -/
def ExpansionFault.message : ExpansionFault → String
  | malformed pattern fault =>
    s!"invalid pattern \x60{String.ofList pattern}\x60: {fault.message}"
  | walk pattern directory fault =>
    s!"failed to expand \x60{String.ofList pattern}\x60: " ++
      s!"IO error for operation on {directory.toString}: {fault.message}"

/-- Which directories cannot be listed, given how they are reached, and why. -/
abbrev Unlisted := Path → Option AccessFault

/-- Every directory can be listed. -/
def allListed : Unlisted := fun _ => none

/-- The one place that the expansion of a pattern starts from: what a plain path names, or where
the walk for a glob starts. -/
def startOfExpansion (root : Path) (pattern : List Char) : Path :=
  root.join ⟨if Glob.hasMagic pattern then walkBase pattern else pattern⟩

namespace FileTree

/-- Whether a file counts, given where it is and how it is reached from the root. -/
def isWanted (pattern : List Char) (glob : Glob) (location : Location) (relative : List Char) :
    Bool :=
  let name := (location.getLast?.map withSlashes).getD relative
  glob.isMatch (if matchesNames pattern then name else relative) && !isLeftOut relative

/-- The files below the root that a glob stands for, in the order of their paths, unless the walk
comes to a directory that cannot be listed. -/
def expandGlob (tree : FileTree) (root : Path) (pattern : List Char) (glob : Glob)
    (unlisted : Unlisted) : Except ExpansionFault (List Path) :=
  let walkRoot := startOfExpansion root pattern
  match tree.node? walkRoot with
  | none => .ok []
  | some node =>
    let fault? := (node.listed (asksForDots pattern)).findSome? fun location =>
      let path := walkRoot.descend location
      (unlisted path).map (ExpansionFault.walk pattern path)
    match fault? with
    | some fault => .error fault
    | none =>
      let found := (node.walk (asksForDots pattern)).filterMap fun location =>
        let path := walkRoot.descend location
        let relative := withSlashes ((path.relativeTo? root).getD path.text)
        if isWanted pattern glob location relative then some path else none
      .ok (found.mergeSort Path.comesBefore)

/-- The files below the root that a pattern stands for. -/
def expand (tree : FileTree) (root : Path) (pattern : List Char)
    (unlisted : Unlisted := allListed) : Except ExpansionFault (List Path) :=
  let pattern := plainForm pattern
  if Glob.hasMagic pattern then
    match Glob.ofText pattern with
    | .ok glob => tree.expandGlob root pattern glob unlisted
    | .error fault => .error (.malformed pattern fault)
  else
    let path := startOfExpansion root pattern
    .ok (if tree.isFile path && !isLeftOut pattern then [path] else [])

section Expand

variable {tree : FileTree} {root : Path} {pattern : List Char} {unlisted : Unlisted}

/-- A plain path stands for the file that it leads to, if that is not left out. -/
theorem expand_of_plain (hPlain : Glob.hasMagic (plainForm pattern) = false) :
    tree.expand root pattern unlisted =
      let path := startOfExpansion root (plainForm pattern)
      .ok (if tree.isFile path && !isLeftOut (plainForm pattern) then [path] else []) := by
  rw [expand, if_neg (by simp [hPlain])]

/-- A plain path that leads to a file stands for this file. -/
theorem expand_of_file (hPlain : Glob.hasMagic (plainForm pattern) = false)
    (hFile : tree.isFile (startOfExpansion root (plainForm pattern)) = true)
    (hKept : isLeftOut (plainForm pattern) = false) :
    tree.expand root pattern unlisted = .ok [startOfExpansion root (plainForm pattern)] := by
  rw [expand_of_plain hPlain]
  simp only [hFile, hKept, Bool.not_false, Bool.and_self, if_true]

/-- A pattern that is no glob cannot be expanded. -/
theorem expand_of_malformed {fault : Glob.PatternFault}
    (hMagic : Glob.hasMagic (plainForm pattern) = true)
    (hGlob : Glob.ofText (plainForm pattern) = .error fault) :
    tree.expand root pattern unlisted = .error (.malformed (plainForm pattern) fault) := by
  rw [expand, if_pos hMagic, hGlob]

end Expand

end FileTree

end Relocation

import Relocation.FileTree
import Relocation.Text.Basic

/-!
# Access by path

A path is followed through the tree segment by segment. Links are followed too, up to a limit that
ends every loop of them; each one is replaced by its target. What a path leads to is a location,
at which a file can be read and written. Only files that hold text can be read.

## Results

* `FileTree.follow_node`, `FileTree.follow_link`: where a name leads, and that of a link;
* `FileTree.read_of_file`: a file that holds a text in UTF-8 is read as that text.
-/

namespace Relocation

open Text

/-- Why a path cannot be followed or read. -/
inductive AccessFault where
  | missing
  | notADirectory
  | isADirectory
  | nameTooLong
  | tooManyLinks
  | denied
  /-- The path holds the zero character, which no name can hold. -/
  | zeroCharacter
  /-- The file is no text in UTF-8. -/
  | notText
  deriving Repr, DecidableEq, Inhabited

/-- What a fault is called. -/
def AccessFault.message : AccessFault → String
  | missing => "No such file or directory (os error 2)"
  | notADirectory => "Not a directory (os error 20)"
  | isADirectory => "Is a directory (os error 21)"
  | nameTooLong => "File name too long (os error 36)"
  | tooManyLinks => "Too many levels of symbolic links (os error 40)"
  | denied => "Permission denied (os error 13)"
  | zeroCharacter => "file name contained an unexpected NUL byte"
  | notText => "stream did not contain valid UTF-8"

namespace FileTree

/-- The number of links that are followed on the way of one path. -/
def linkLimit : Nat := 40

/-- The number of bytes in the longest name. -/
def nameLimit : Nat := 255

/-- The number of bytes in the longest path. -/
def pathLimit : Nat := 4095

/-- Follows segments from a location on. -/
def follow (tree : FileTree) (links : Nat) (from_ : Location) (segments : List (List Char)) :
    Except AccessFault Location :=
  match segments with
  | [] => .ok from_
  | segment :: rest =>
    match tree.at? from_ with
    | some (.directory entries) =>
      if segment = [] ∨ segment = ['.'] then tree.follow links from_ rest
      else if segment = ['.', '.'] then tree.follow links from_.dropLast rest
      else if nameLimit < byteLength segment then .error .nameTooLong
      else
        match entries.find? segment with
        | none => .error .missing
        | some (.link target) =>
          match links with
          | 0 => .error .tooManyLinks
          | links + 1 =>
            tree.follow links (if target.isAbsolute then [] else from_) (target.segments ++ rest)
        | some _ => tree.follow links (from_ ++ [segment]) rest
    | _ => .error .notADirectory
termination_by (links, segments.length)

section Follow

variable {tree : FileTree} {links : Nat} {from_ : Location} {name : Name} {node : Node}
  {bytes : ByteArray} {target : Path} {entries : Entries} {rest : List (List Char)}

/-- The segment names an entry of a directory: it is neither empty nor made of dots, and it is not
too long. -/
def isName (segment : List Char) : Bool :=
  !([[], ['.'], ['.', '.']].contains segment) && decide (byteLength segment ≤ nameLimit)

/-- Without segments nothing is followed. -/
theorem follow_nil : tree.follow links from_ [] = .ok from_ := by rw [follow]

/-- A dot stays in its directory. -/
theorem follow_dot (hAt : tree.at? from_ = some (.directory entries)) :
    tree.follow links from_ (['.'] :: rest) = tree.follow links from_ rest := by
  rw [follow, hAt]
  exact if_pos (.inr rfl)

theorem isName_spec (h : isName name = true) :
    ¬(name = [] ∨ name = ['.']) ∧ name ≠ ['.', '.'] ∧ ¬nameLimit < byteLength name := by
  simp only [isName, Bool.and_eq_true, Bool.not_eq_true', decide_eq_true_eq, List.contains_cons,
    List.contains_nil, Bool.or_false, Bool.or_eq_false_iff, beq_eq_false_iff_ne] at h
  obtain ⟨⟨hFilled, hDot, hDots⟩, hShort⟩ := h
  exact ⟨not_or.2 ⟨hFilled, hDot⟩, hDots, Nat.not_lt.2 hShort⟩

/-- Two dots lead out of a directory. -/
theorem follow_up (hAt : tree.at? from_ = some (.directory entries)) :
    tree.follow links from_ (['.', '.'] :: rest) = tree.follow links from_.dropLast rest := by
  rw [follow, hAt]
  simp only [List.cons_ne_nil, List.cons.injEq, and_false, or_self, if_false, if_true]

/-- The name of anything but a link leads to what it names. -/
theorem follow_node (hAt : tree.at? from_ = some (.directory entries))
    (hName : isName name = true) (hNode : entries.find? name = some node)
    (hDirect : ∀ target, node ≠ .link target) :
    tree.follow links from_ (name :: rest) = tree.follow links (from_ ++ [name]) rest := by
  obtain ⟨hMoves, hDots, hShort⟩ := isName_spec hName
  rw [follow, hAt]
  cases node with
  | link target => exact absurd rfl (hDirect target)
  | file | directory => simp only [hMoves, hDots, hShort, hNode, if_false]

/-- The name of a file leads to the file. -/
theorem follow_file (hAt : tree.at? from_ = some (.directory entries))
    (hName : isName name = true) (hFile : entries.find? name = some (.file bytes)) :
    tree.follow links from_ (name :: rest) = tree.follow links (from_ ++ [name]) rest :=
  follow_node hAt hName hFile fun _ => Node.noConfusion

/-- The name of a link leads on to its target. -/
theorem follow_link (hAt : tree.at? from_ = some (.directory entries))
    (hName : isName name = true) (hLink : entries.find? name = some (.link target)) :
    tree.follow (links + 1) from_ (name :: rest)
      = tree.follow links (if target.isAbsolute then [] else from_) (target.segments ++ rest) := by
  obtain ⟨hMoves, hDots, hShort⟩ := isName_spec hName
  rw [follow, hAt]
  simp only [hMoves, hDots, hShort, hLink, if_false]

end Follow

/-- Where a path leads to. -/
def resolve (tree : FileTree) (path : Path) : Except AccessFault Location :=
  if path.text.contains '\x00' then .error .zeroCharacter
  else if path.text = [] then .error .missing
  else if pathLimit < byteLength path.text then .error .nameTooLong
  else
    tree.follow linkLimit (if path.isAbsolute then [] else tree.workingDirectory) path.segments

/-- A short path is followed from the root or from the working directory. -/
theorem resolve_of_short {tree : FileTree} {path : Path}
    (hZero : path.text.contains '\x00' = false) (hText : path.text ≠ [])
    (hShort : byteLength path.text ≤ pathLimit) :
    tree.resolve path
      = tree.follow linkLimit (if path.isAbsolute then [] else tree.workingDirectory)
          path.segments := by
  rw [resolve, if_neg (by simpa using hZero), if_neg hText, if_neg (Nat.not_lt.2 hShort)]

/-- The node that a path leads to. -/
def node? (tree : FileTree) (path : Path) : Option Node :=
  match tree.resolve path with
  | .ok location => tree.at? location
  | .error _ => none

/-- Whether the path leads to a file. -/
def isFile (tree : FileTree) (path : Path) : Bool :=
  match tree.node? path with
  | some (.file _) => true
  | _ => false

/-- The text of the file that the path leads to. -/
def read (tree : FileTree) (path : Path) : Except AccessFault String := do
  match tree.at? (← tree.resolve path) with
  | some (.file bytes) =>
    match String.fromUTF8? bytes with
    | some text => return text
    | none => .error .notText
  | some (.directory _) => .error .isADirectory
  | _ => .error .missing

/-- A file that holds a text in UTF-8 is read as that text. -/
theorem read_of_file {tree : FileTree} {path : Path} {location : Location} {text : String}
    (hResolve : tree.resolve path = .ok location)
    (hFile : tree.at? location = some (.file text.toUTF8)) : tree.read path = .ok text := by
  have hText : String.fromUTF8? text.toUTF8 = some text := by
    rw [String.fromUTF8?, String.toUTF8_eq_toByteArray, dif_pos text.isValidUTF8]
    rfl
  simp only [read, hResolve, bind, Except.bind, hFile, hText, pure, Except.pure]

/-- Puts a text in place of what the file holds that the path leads to. -/
def write (tree : FileTree) (path : Path) (text : String) : FileTree :=
  match tree.resolve path with
  | .ok location =>
    tree.modifyAt location fun
      | .file _ => .file text.toUTF8
      | node => node
  | .error _ => tree

end FileTree

end Relocation

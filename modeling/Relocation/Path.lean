import Relocation.Text.Order
import Relocation.Text.Segments

/-!
# Paths

A path is kept as it is written, because reports show it that way. Slashes divide it into
segments, and the segments that mean something are its components: an empty segment means nothing,
nor does a dot, except at the start. Two paths with the same components are the same path, and
paths are ordered by their components.
-/

namespace Relocation

open Text

/-- The name of a file or of a directory. -/
abbrev Name := List Char

/-- A path as it is written. -/
structure Path where
  text : List Char
  deriving Repr, DecidableEq, Inhabited

/-- A step of a path. -/
inductive Component where
  /-- A slash at the start. -/
  | root
  /-- A dot at the start. -/
  | here
  /-- Two dots. -/
  | up
  | name (name : Name)
  deriving Repr, DecidableEq, Inhabited

namespace Component

/-- What a segment behind the start of a path means. -/
def ofSegment? : List Char → Option Component
  | [] | ['.'] => none
  | ['.', '.'] => some up
  | segment => some (name segment)

/-- Components as words: they are ordered by kind, and names by their characters. -/
def word : Component → List Nat
  | root => [0]
  | here => [1]
  | up => [2]
  | name text => 3 :: text.map Char.toNat

end Component

namespace Path

/-- The path that a string writes. -/
def ofString (text : String) : Path := ⟨text.toList⟩

/-- The path as a string. -/
def toString (path : Path) : String := String.ofList path.text

theorem ofString_toString (path : Path) : ofString path.toString = path := by
  rw [ofString, toString, String.toList_ofList]

-- ---------------------------------------------------------------------------
-- Components
-- ---------------------------------------------------------------------------

/-- Whether the path starts at the root. -/
def isAbsolute (path : Path) : Bool := path.text.head? == some '/'

/-- The segments of the path. -/
def segments (path : Path) : List (List Char) := Text.segments '/' path.text

/-- The component that only a start can be, and the segments behind it. -/
def anchored (path : Path) : Option Component × List (List Char) :=
  match path.segments with
  | [] :: next :: rest => (some .root, next :: rest)
  | ['.'] :: rest => (some .here, rest)
  | all => (none, all)

/-- The components of the path. -/
def components (path : Path) : List Component :=
  let (start, rest) := path.anchored
  start.toList ++ rest.filterMap Component.ofSegment?

/-- Whether the first path comes before the second one or is the same. -/
def comesBefore (path other : Path) : Bool :=
  wordLe (wordLe Nat.ble) (path.components.map Component.word) (other.components.map Component.word)

-- ---------------------------------------------------------------------------
-- Joining
-- ---------------------------------------------------------------------------

/-- The path that leads on from the first one. An absolute path leads nowhere but to itself. -/
def join (base path : Path) : Path :=
  if path.isAbsolute then path
  else if base.text = [] ∨ base.text.getLast? = some '/' then ⟨base.text ++ path.text⟩
  else ⟨base.text ++ '/' :: path.text⟩

/-- The path that leads on by names. -/
def descend (base : Path) (names : List Name) : Path :=
  names.foldl (fun path name => path.join ⟨name⟩) base

-- ---------------------------------------------------------------------------
-- Relative paths
-- ---------------------------------------------------------------------------

/-- The segments behind the given components, if they lead there. Segments that mean nothing do
not count in front. -/
def segmentsBehind? : List Component → List (List Char) → Option (List (List Char))
  | [], [] => some []
  | _ :: _, [] => none
  | components, segment :: rest =>
    match Component.ofSegment? segment with
    | none => segmentsBehind? components rest
    | some found =>
      match components with
      | [] => some (segment :: rest)
      | component :: components =>
        if component = found then segmentsBehind? components rest else none

/-- What is left of the path behind a base, as it is written, if the path leads through the
base. -/
def relativeTo? (path base : Path) : Option (List Char) :=
  match base.components with
  | [] => some path.text
  | first :: others =>
    let rest? :=
      match path.anchored with
      | (some start, rest) => if start = first then segmentsBehind? others rest else none
      | (none, rest) => segmentsBehind? (first :: others) rest
    rest?.map (joined '/')

end Path

/-- The text with slashes for backslashes. -/
def withSlashes (text : List Char) : List Char := text.map fun c => if c = '\\' then '/' else c

end Relocation

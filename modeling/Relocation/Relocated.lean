import Relocation.Imports
import Relocation.Rules
import Relocation.Splice

/-!
# Relocated texts

Here the parts come together: the imports of a source are located, the rules say where each path
moves to, and the new paths are spliced between the quotes of the literals. The result names every
literal that was changed. A source that is no module, even with recovery, stays as it is.
-/

namespace Relocation

open Text

/-- A literal that was changed. -/
structure Move where
  shape : ImportShape
  /-- The line of the literal, counted from one. -/
  line : Nat
  /-- The path as it was. -/
  source : String
  /-- The path as it is now. -/
  target : String
  deriving Repr, DecidableEq, Inhabited

/-- A text with its moves, in the order of the source. -/
structure Relocated where
  text : String
  moves : List Move
  deriving Repr, DecidableEq, Inhabited

/-- The imports that move, each with its new path. -/
def movingImports (rules : Rules) (imports : List LocatedImport) :
    List (LocatedImport × String) :=
  imports.filterMap fun located =>
    (rules.relocate? located.path.value).map fun target => (located, target)

namespace Relocated

/-- Relocates located imports in a source. -/
def ofImports (rules : Rules) (source : String) (imports : List LocatedImport) : Relocated :=
  let moving := movingImports rules imports
  { text := splice source <| moving.map fun (located, target) =>
      ⟨located.path.start, located.path.stop, target⟩
    moves := moving.map fun (located, target) =>
      { shape := located.shape
        line := lineOf source.toList located.path.start
        source := located.path.value
        target := target } }

end Relocated

/-- Relocates the imports of a source by the rules. The file name selects the dialect. -/
def relocateWith (rules : Rules) (source fileName : String) : Relocated :=
  match ParsedSource.ofSource? source.toList fileName with
  | some parsed => .ofImports rules source parsed.imports
  | none => ⟨source, []⟩

/-- Relocates the imports of a source by the built-in rules. -/
def relocate (source fileName : String) : String := (relocateWith .monocdk source fileName).text

end Relocation

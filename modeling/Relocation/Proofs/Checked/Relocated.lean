import Relocation.Proofs.Checked.Lexicon
import Relocation.Proofs.Checked.Recovery
import Relocation.Proofs.Checked.Splice

/-!
# Relocation never fails

All the parts together: a source is parsed with recovery, its imports are located and held against
the tokens of the source, the moves are listed with their lines, and the new paths are spliced in.
Made of operations that can fail, the whole still gives a result for every source and every table of
rules, and it is the one of the total definition. Nothing is known of what reads the source: it may
give any items or report a fault at any offset, and the ranges of literals and tokens may lie
anywhere, in any order.

## Results

* `imports_eq_ok`: the imports that a reader finds are located, with the halving search of the
  tokens;
* `relocate_eq_ok`: relocation succeeds with any reader.
-/

namespace Relocation

open Text TypeScript

namespace Checked

-- ---------------------------------------------------------------------------
-- Located imports
-- ---------------------------------------------------------------------------

/-- The imports of a source, in the order of their items. -/
def imports (parsed : ParsedSource) : Except Trap (List LocatedImport) :=
  (parsed.items.filterMap parsed.importOf?).filterM fun located =>
    lookUp parsed ⟨located.path.start, located.path.stop⟩

/-- A list is filtered by a test that succeeds. -/
theorem filterM_eq_ok {α : Type} (p : α → Bool) (list : List α) :
    list.filterM (fun a => (.ok (p a) : Except Trap Bool)) = .ok (list.filter p) := by
  have hAux (kept : List α) : list.filterAuxM (fun a => (.ok (p a) : Except Trap Bool)) kept
      = .ok ((list.filter p).reverse ++ kept) := by
    induction list generalizing kept with
    | nil => rfl
    | cons a list ih =>
      rw [List.filterAuxM, ok_bind, ih, List.filter_cons]
      cases p a <;> simp
  rw [List.filterM, hAux, ok_bind, List.append_nil]
  exact congrArg Except.ok (List.reverse_reverse _)

/-- The imports that a reader finds are located, since the tokens that it gives are sorted before
any range is looked up among them. -/
theorem imports_eq_ok (reader : Reader) (source : List Char) (recovered : Recovered (List Item)) :
    imports (reader.parsed source recovered) = .ok (reader.parsed source recovered).imports := by
  unfold imports ParsedSource.imports
  simp only [lookUp_parsed]
  exact filterM_eq_ok _ _

-- ---------------------------------------------------------------------------
-- Relocated texts
-- ---------------------------------------------------------------------------

/-- The line of an offset, counted from one. -/
def lineOf (source : List Char) (offset : Nat) : Except Trap Nat := do
  let front ← firsts (bytes source) (min offset (bytes source).length)
  return front.count (byteOf '\n') + 1

theorem lineOf_eq_ok (source : List Char) (offset : Nat) :
    lineOf source offset = .ok (Text.lineOf source offset) := by
  rw [lineOf, firsts_eq_ok (Nat.min_le_right _ _), ok_bind, Text.lineOf, lineFeedsBefore_eq_count,
    ← List.take_eq_take_min]
  rfl

/-- The move that stands for a moving import. -/
def moveOf (source : List Char) (moving : LocatedImport × String) : Except Trap Move := do
  let line ← lineOf source moving.1.path.start
  return ⟨moving.1.shape, line, moving.1.path.value, moving.2⟩

/-- Relocates located imports in a source. -/
def ofImports (rules : Rules) (source : String) (imports : List LocatedImport) :
    Except Trap Relocated := do
  let moving := movingImports rules imports
  let moves ← moving.mapM (moveOf source.toList)
  let text ← splice source <| moving.map fun (located, target) =>
    ⟨located.path.start, located.path.stop, target⟩
  return ⟨text, moves⟩

/-- Relocates the imports that the reader finds in a source. -/
def relocate (reader : Reader) (rules : Rules) (source : String) : Except Trap Relocated := do
  match ← recoverWithin reader.items blankingLimit ⟨source.toList, []⟩ with
  | some recovered => do
    let located ← imports (reader.parsed source.toList recovered)
    ofImports rules source located
  | none => return ⟨source, []⟩

theorem moveOf_eq_ok (source : List Char) (moving : LocatedImport × String) :
    moveOf source moving = .ok ⟨moving.1.shape, Text.lineOf source moving.1.path.start,
      moving.1.path.value, moving.2⟩ := by
  rw [moveOf, lineOf_eq_ok]
  rfl

theorem ofImports_eq_ok (rules : Rules) (source : String) (imports : List LocatedImport) :
    ofImports rules source imports = .ok (.ofImports rules source imports) := by
  have hMove : moveOf source.toList = fun moving => pure ⟨moving.1.shape,
      Text.lineOf source.toList moving.1.path.start, moving.1.path.value, moving.2⟩ :=
    funext (moveOf_eq_ok source.toList)
  rw [ofImports]
  dsimp only
  rw [hMove, List.mapM_pure, splice_eq_ok]
  rfl

/-- **Relocation never fails.** Made of operations that fail where a text cannot be cut, where an
index or a range is out of bounds or where a number would fall below zero, relocation still gives
a result, and it is that of the total definition.

The first part is told of any reader. It may give any items for any text, with the ranges of their
literals anywhere and in any order, it may report a fault at any offset, and its tokens may be any
ranges. The second part is the reader that a file name selects. There is no hypothesis on the
source or on the rules. -/
theorem relocate_eq_ok (rules : Rules) (source : String) :
    (∀ reader : Reader, relocate reader rules source = .ok (reader.relocate rules source)) ∧
      ∀ fileName, relocate (.ofFileName fileName) rules source
        = .ok (relocateWith rules source fileName) := by
  have hAny (reader : Reader) :
      relocate reader rules source = .ok (reader.relocate rules source) := by
    unfold relocate Reader.relocate
    rw [recover_eq_ok, ok_bind]
    cases recover? reader.items source.toList with
    | none => rfl
    | some recovered =>
      dsimp only
      rw [imports_eq_ok, ok_bind, ofImports_eq_ok]
  refine ⟨hAny, fun fileName => ?_⟩
  rw [hAny, Reader.relocate_ofFileName]

end Checked

end Relocation

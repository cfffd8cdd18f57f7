import Relocation.Proofs.Patched
import Relocation.Relocated

/-!
# Sources with well placed imports

If the imports of a source are quoted ranges that follow one another, then relocating the source
exchanges the inside of every literal whose path moves, and nothing else. All that is asked of
what reads the source is that its literals are so placed; which items it finds, and what recovery
made of the text on the way, plays no part. So a reader is a parameter here, made of any parser and
any scanner, and relocation is what one of the readers gives.

## Results

* `Reader.relocate_eq_ofImports`: the outcome depends on the imports alone;
* `Reader.relocate_ofFileName`: with the grammar and the scanner for its reader, this is relocation;
* `Reader.relocate_of_wellPlaced`: the text, the moves and their lines for well placed imports,
  whatever has found them;
* `relocateWith_of_wellPlaced`: the same of relocation.
-/

namespace Relocation

open Text TypeScript

variable {rules : Rules} {source fileName : String}

-- ---------------------------------------------------------------------------
-- Readers
-- ---------------------------------------------------------------------------

/-- A parser and a scanner. -/
structure Reader where
  /-- The items of a text, or the offset of a fault. -/
  items : List Char → Except Nat (List Item)
  /-- The ranges of the tokens of a text. -/
  tokens : List Char → List ByteRange

namespace Reader

/-- The grammar and the scanner that the file name selects. -/
def ofFileName (fileName : String) : Reader where
  items text := itemsOf (.ofFileName fileName) (withoutMark text)
  tokens text := (lexemesOf (.ofFileName fileName) (withoutMark text)).map fun lexeme =>
    ⟨lexeme.start, lexeme.stop⟩

/-- What is known of a source that could be parsed. -/
def parsed (reader : Reader) (source : List Char) (recovered : Recovered (List Item)) :
    ParsedSource where
  items := recovered.tree
  calls := recovered.working.calls
  lexicon :=
    if recovered.working.text = source then none else some (.ofRanges (reader.tokens source))

/-- The imports that the reader finds in a source, of which there are none if it is no module. -/
def importsIn (reader : Reader) (source : List Char) : List LocatedImport :=
  ((recover? reader.items source).map fun recovered =>
    (reader.parsed source recovered).imports).getD []

/-- Relocates the imports that the reader finds in a source. -/
def relocate (reader : Reader) (rules : Rules) (source : String) : Relocated :=
  match recover? reader.items source.toList with
  | some recovered => .ofImports rules source (reader.parsed source.toList recovered).imports
  | none => ⟨source, []⟩

/-- With the grammar and the scanner for its reader, this is relocation. -/
theorem relocate_ofFileName (rules : Rules) (source fileName : String) :
    (ofFileName fileName).relocate rules source = relocateWith rules source fileName := by
  unfold relocate relocateWith ParsedSource.ofSource?
  dsimp only
  rw [show (ofFileName fileName).items
    = fun text => itemsOf (.ofFileName fileName) (withoutMark text) from rfl]
  cases recover? _ source.toList <;> rfl

end Reader

-- ---------------------------------------------------------------------------
-- Imports and replacements
-- ---------------------------------------------------------------------------

/-- The imports of a source, of which there are none if it is no module. -/
def importsOf (source fileName : String) : List LocatedImport :=
  ((ParsedSource.ofSource? source.toList fileName).map ParsedSource.imports).getD []

/-- The replacement that a moving import asks for. -/
def replacementOf (moving : LocatedImport × String) : Replacement :=
  ⟨moving.1.path.start, moving.1.path.stop, moving.2⟩

/-- The move that stands for a moving import. The line counts the line feeds in front of the
literal. -/
def moveOf (source : List Char) (moving : LocatedImport × String) : Move where
  shape := moving.1.shape
  line := (before source moving.1.path.start).count '\n' + 1
  source := moving.1.path.value
  target := moving.2

/-- The replacements that relocating a source asks for. -/
def replacementsOf (rules : Rules) (source fileName : String) : List Replacement :=
  (movingImports rules (importsOf source fileName)).map replacementOf

/-- Without replacements the text stays. -/
theorem splice_nil (source : String) : splice source [] = source := by
  have hNothing : Replacement.latestFirst [] = [] := by simp [Replacement.latestFirst]
  simp [splice, hNothing, Editing.start, Editing.chars]

/-- The outcome depends on the imports alone. -/
theorem Reader.relocate_eq_ofImports (reader : Reader) (rules : Rules) (source : String) :
    reader.relocate rules source = .ofImports rules source (reader.importsIn source.toList) := by
  unfold relocate importsIn
  cases recover? reader.items source.toList with
  | some recovered => rfl
  | none => simp [Relocated.ofImports, movingImports, splice_nil]

/-- The imports of a source are those that the grammar and the scanner find. -/
theorem Reader.importsIn_ofFileName (source fileName : String) :
    (ofFileName fileName).importsIn source.toList = importsOf source fileName := by
  unfold importsIn importsOf ParsedSource.ofSource?
  dsimp only
  rw [Option.map_map]
  rfl

theorem relocateWith_eq_ofImports (rules : Rules) (source fileName : String) :
    relocateWith rules source fileName
      = .ofImports rules source (importsOf source fileName) := by
  rw [← Reader.relocate_ofFileName, Reader.relocate_eq_ofImports, Reader.importsIn_ofFileName]

theorem relocateWith_text (rules : Rules) (source fileName : String) :
    (relocateWith rules source fileName).text
      = splice source (replacementsOf rules source fileName) := by
  rw [relocateWith_eq_ofImports]
  rfl

theorem mem_movingImports {imports : List LocatedImport} {moving : LocatedImport × String} :
    moving ∈ movingImports rules imports ↔
      moving.1 ∈ imports ∧ rules.relocate? moving.1.path.value = some moving.2 := by
  obtain ⟨located, target⟩ := moving
  simp only [movingImports, List.mem_filterMap, Option.map_eq_some_iff, Prod.mk.injEq]
  constructor
  · rintro ⟨_, hMem, _, hTarget, rfl, rfl⟩
    exact ⟨hMem, hTarget⟩
  · rintro ⟨hMem, hTarget⟩
    exact ⟨located, hMem, target, hTarget, rfl, rfl⟩

-- ---------------------------------------------------------------------------
-- Well placed imports
-- ---------------------------------------------------------------------------

/-- Imports whose literals are quoted ranges of the source that follow one another. -/
structure WellPlaced (source : List Char) (imports : List LocatedImport) : Prop where
  quoted : ∀ located ∈ imports, QuotedAt source located.path.start located.path.stop
  ordered : imports.Pairwise fun l r => l.path.stop ≤ r.path.start

/-- What holds of any two imports in order holds of those that move. -/
theorem pairwise_movingImports {R : LocatedImport → LocatedImport → Prop}
    {imports : List LocatedImport} (h : imports.Pairwise R) :
    (movingImports rules imports).Pairwise fun l r => R l.1 r.1 := by
  rw [movingImports, List.pairwise_filterMap]
  refine h.imp fun {l r} hR l' hl r' hr => ?_
  obtain ⟨_, -, rfl⟩ := Option.map_eq_some_iff.1 hl
  obtain ⟨_, -, rfl⟩ := Option.map_eq_some_iff.1 hr
  exact hR

theorem WellPlaced.inOrder {imports : List LocatedImport}
    (h : WellPlaced source.toList imports) :
    InOrder source.toList ((movingImports rules imports).map replacementOf) := by
  refine ⟨fun r hr => ?_, ?_⟩
  · obtain ⟨moving, hMoving, rfl⟩ := List.mem_map.1 hr
    exact h.quoted moving.1 (mem_movingImports.1 hMoving).1
  · rw [List.pairwise_map]
    exact pairwise_movingImports h.ordered

/-- The line of a quoted range counts the line feeds in front of it. -/
theorem QuotedAt.lineOf {source : List Char} {start stop : Nat} (h : QuotedAt source start stop) :
    lineOf source start = (before source start).count '\n' + 1 := by
  obtain ⟨front, opening, inside, closing, behind, rfl, rfl, -⟩ := h
  rw [lineOf_append, before_append]

/-- The part before a range that starts further on begins with the part before the first one. -/
theorem QuotedAt.before_prefix {source : List Char} {start stop start' stop' : Nat}
    (h : QuotedAt source start stop) (h' : QuotedAt source start' stop') (hLe : start ≤ start') :
    ∃ between, before source start' = before source start ++ between := by
  obtain ⟨front, opening, inside, closing, behind, rfl, rfl, -⟩ := h
  obtain ⟨front', opening', inside', closing', behind', hSource, rfl, -⟩ := h'
  obtain ⟨between, rfl, -⟩ := eq_append_of_le hSource hLe
  rw [before_append, hSource, before_append]
  exact ⟨between, rfl⟩

theorem WellPlaced.moves {imports : List LocatedImport} (h : WellPlaced source.toList imports) :
    (Relocated.ofImports rules source imports).moves
      = (movingImports rules imports).map (moveOf source.toList) := by
  rw [Relocated.ofImports]
  refine List.map_congr_left fun moving hMoving => ?_
  have hQuoted := h.quoted moving.1 (mem_movingImports.1 hMoving).1
  simp only [moveOf, hQuoted.lineOf]

/-- The lines of the moves do not go back. -/
theorem WellPlaced.lines {imports : List LocatedImport} (h : WellPlaced source.toList imports) :
    ((movingImports rules imports).map (moveOf source.toList)).Pairwise
      fun l r => l.line ≤ r.line := by
  rw [List.pairwise_map]
  refine (pairwise_movingImports h.ordered).imp_of_mem fun {l r} hl hr hStop => ?_
  have hl' := h.quoted l.1 (mem_movingImports.1 hl).1
  have hr' := h.quoted r.1 (mem_movingImports.1 hr).1
  have hBounds := hl'.bounds
  obtain ⟨between, hBefore⟩ := hl'.before_prefix hr' (by omega)
  simp only [moveOf, hBefore, List.count_append]
  omega

/-- **Relocation with any reader.** Whatever reads the source: if the imports that it finds are
well placed, relocating exchanges the inside of every literal whose path moves and keeps
everything else, and the moves are listed in the order of the source with the lines of their
literals.

`hPlaced` is all that is asked of the reader. Its items, its tokens and what recovery made of the
text on the way count only through the imports that come out of them. -/
theorem Reader.relocate_of_wellPlaced (reader : Reader) (rules : Rules)
    (hPlaced : WellPlaced source.toList (reader.importsIn source.toList)) :
    let moving := movingImports rules (reader.importsIn source.toList)
    let edits := moving.map replacementOf
    let relocated := reader.relocate rules source
    Patched 0 source.toList edits relocated.text.toList ∧
      relocated.moves = moving.map (moveOf source.toList) ∧
      relocated.moves.Pairwise (fun l r => l.line ≤ r.line) ∧
      (Editing.start source.toList).made (Replacement.latestFirst edits)
        = Replacement.latestFirst edits := by
  intro moving edits relocated
  have hRelocated : relocated = .ofImports rules source (reader.importsIn source.toList) :=
    reader.relocate_eq_ofImports rules source
  have hMoves : relocated.moves = moving.map (moveOf source.toList) := by
    rw [hRelocated]
    exact hPlaced.moves
  have hText : relocated.text = splice source edits := by
    rw [hRelocated]
    rfl
  refine ⟨?_, hMoves, ?_, made_of_inOrder hPlaced.inOrder⟩
  · rw [hText]
    exact splice_patched_of_inOrder hPlaced.inOrder
  · rw [hMoves]
    exact hPlaced.lines

/-- **Relocation of well placed imports.** Relocating a source exchanges the inside of every literal
whose path moves and keeps everything else, byte for byte. There is one move for each of these
literals, in the order of the source and with its line, and no replacement is passed over.

`hPlaced` says of the imports of the source that their literals are quoted ranges, and that each of
them ends before the next one starts. Nothing else is asked of how the source is read: this is
`Reader.relocate_of_wellPlaced` for the grammar and the scanner that the file name selects. -/
theorem relocateWith_of_wellPlaced (rules : Rules)
    (hPlaced : WellPlaced source.toList (importsOf source fileName)) :
    let moving := movingImports rules (importsOf source fileName)
    let edits := moving.map replacementOf
    let relocated := relocateWith rules source fileName
    Patched 0 source.toList edits relocated.text.toList ∧
      relocated.moves = moving.map (moveOf source.toList) ∧
      relocated.moves.Pairwise (fun l r => l.line ≤ r.line) ∧
      (Editing.start source.toList).made (Replacement.latestFirst edits)
        = Replacement.latestFirst edits := by
  rw [← Reader.importsIn_ofFileName] at hPlaced ⊢
  rw [← Reader.relocate_ofFileName]
  exact (Reader.ofFileName fileName).relocate_of_wellPlaced rules hPlaced

/-- A source of two lines whose imports both move by the built-in rules. -/
def twoLines : String := "import '@aws-cdk/core'\nrequire(\"@aws-cdk/s3\")"

theorem importsOf_twoLines :
    importsOf twoLines "a" =
      [⟨.sideEffect, ⟨7, 22, "@aws-cdk/core"⟩⟩, ⟨.require, ⟨31, 44, "@aws-cdk/s3"⟩⟩] := by
  decide +kernel

theorem wellPlaced_twoLines : WellPlaced twoLines.toList (importsOf twoLines "a") := by
  rw [importsOf_twoLines]
  refine ⟨?_, by decide⟩
  intro located hLocated
  rcases List.mem_pair.1 hLocated with rfl | rfl
  · exact ⟨"import ".toList, '\'', "@aws-cdk/core".toList, '\'',
      "\nrequire(\"@aws-cdk/s3\")".toList, by decide +kernel⟩
  · exact ⟨"import '@aws-cdk/core'\nrequire(".toList, '"', "@aws-cdk/s3".toList, '"', [')'],
      by decide +kernel⟩

/-- Both literals of the two lines get their new paths. -/
theorem relocateWith_twoLines :
    WellPlaced twoLines.toList (importsOf twoLines "a") ∧
      Patched 0 twoLines.toList [⟨7, 22, "monocdk"⟩, ⟨31, 44, "monocdk/s3"⟩]
        (relocateWith .monocdk twoLines "a").text.toList ∧
      (relocateWith .monocdk twoLines "a").moves =
        [⟨.sideEffect, 1, "@aws-cdk/core", "monocdk"⟩,
          ⟨.require, 2, "@aws-cdk/s3", "monocdk/s3"⟩] := by
  have hMoving : movingImports .monocdk (importsOf twoLines "a") =
      [(⟨.sideEffect, ⟨7, 22, "@aws-cdk/core"⟩⟩, "monocdk"),
        (⟨.require, ⟨31, 44, "@aws-cdk/s3"⟩⟩, "monocdk/s3")] := by
    rw [importsOf_twoLines]
    decide +kernel
  have hRelocated := relocateWith_of_wellPlaced .monocdk wellPlaced_twoLines
  rw [hMoving] at hRelocated
  obtain ⟨hText, hMoves, -⟩ := hRelocated
  refine ⟨wellPlaced_twoLines, hText, hMoves.trans ?_⟩
  decide +kernel

end Relocation

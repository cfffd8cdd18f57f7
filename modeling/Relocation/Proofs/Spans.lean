import Relocation.Proofs.Grammar.PlacedItems
import Relocation.Proofs.Spelled
import Relocation.Proofs.WellPlaced

/-!
# The spans of imports

The imports of a source are string tokens of the text that recovery leaves of it, one behind the
other. Their spans are offsets into that text without its byte order mark. So an import stands in
the source, quotes and value, under three conditions, and under no others: its span must be moved
by the mark, if the text has one; its literal must be closed; and recovery must not have touched
it.

## Results

* `importsOf_placed`, `importsOf_ordered`: imports are string tokens that follow one another;
* `ordered_replacementsOf`: and so do the ranges that relocating replaces;
* `spelled_importsOf_iff`: when the source spells an import at its span.
-/

namespace Relocation

open Text TypeScript

variable {source fileName : String} {text : List Char} {located : LocatedImport}

-- ---------------------------------------------------------------------------
-- The text of the imports
-- ---------------------------------------------------------------------------

/-- The text that the imports of a source are read from: what recovery leaves of it, if that is a
module. -/
def workingText? (source fileName : String) : Option (List Char) :=
  (recover? (fun text => itemsOf (Dialect.ofFileName fileName) (withoutMark text))
    source.toList).map fun recovered => recovered.working.text

/-- The length of the byte order mark, if the text has one. -/
def markLength (text : List Char) : Nat := if text.head? = some '\ufeff' then 3 else 0

/-- A text is its mark and the text without it. -/
theorem eq_mark_append (text : List Char) :
    ∃ mark, text = mark ++ withoutMark text ∧ byteLength mark = markLength text := by
  unfold withoutMark markLength
  split
  · exact ⟨['\ufeff'], rfl, rfl⟩
  · rename_i hMark
    refine ⟨[], rfl, ?_⟩
    rw [if_neg]
    · rfl
    · intro hHead
      obtain ⟨rest, rfl⟩ := List.head?_eq_some_iff.1 hHead
      exact hMark rest rfl

/-- A string token of the text without its mark is one of the text, further on by the mark. -/
theorem TypeScript.StringAt.withMark {start stop : Nat} {value : String}
    (h : StringAt (withoutMark text) start stop value) :
    StringAt text (start + markLength text) (stop + markLength text) value := by
  obtain ⟨rest, length, ⟨front, hFront, hStart⟩, hToken, rfl⟩ := h
  obtain ⟨mark, hText, hMark⟩ := eq_mark_append text
  rw [← hMark]
  refine ⟨rest, length, ⟨mark ++ front, ?_, ?_⟩, hToken, by omega⟩
  · rw [List.append_assoc, ← hFront, ← hText]
  · rw [byteLength_append]
    omega

-- ---------------------------------------------------------------------------
-- Imports are string tokens
-- ---------------------------------------------------------------------------

/-- The paths of the imports among the items are the paths of the items. -/
theorem map_path_filterMap_importOf? (parsed : ParsedSource) (items : List Item) :
    (items.filterMap parsed.importOf?).map LocatedImport.path = Grammar.literals items := by
  induction items with
  | nil => rfl
  | cons item items ih =>
    have hSplit : Grammar.literals (item :: items)
        = Grammar.literals item ++ Grammar.literals items := rfl
    rw [hSplit, ← ih]
    cases item <;> rfl

/-- The paths of the imports of a parsed source are paths of its items, in their order. -/
theorem path_imports_sublist (parsed : ParsedSource) :
    (parsed.imports.map LocatedImport.path).Sublist (Grammar.literals parsed.items) := by
  rw [← map_path_filterMap_importOf? parsed]
  exact List.filter_sublist.map _

/-- A source with imports leaves a text whose items name their paths. -/
theorem paths_importsOf (h : importsOf source fileName ≠ []) :
    ∃ text items, workingText? source fileName = some text ∧ Accounted source.toList text ∧
      itemsOf (Dialect.ofFileName fileName) (withoutMark text) = .ok items ∧
      ((importsOf source fileName).map LocatedImport.path).Sublist (Grammar.literals items) := by
  unfold importsOf at h ⊢
  unfold workingText?
  cases hParsed : ParsedSource.ofSource? source.toList fileName with
  | none => simp [hParsed] at h
  | some parsed =>
    obtain ⟨recovered, hRecovered, rfl⟩ := Option.map_eq_some_iff.1 hParsed
    obtain ⟨hAccounted, hItems⟩ := recover?_accounted hRecovered
    exact ⟨recovered.working.text, recovered.tree, by rw [hRecovered]; rfl, hAccounted, hItems,
      path_imports_sublist _⟩

/-- An import is a string token of the text that it is read from. -/
theorem importsOf_placed (hLocated : located ∈ importsOf source fileName) :
    ∃ text, workingText? source fileName = some text ∧ Accounted source.toList text ∧
      StringAt text (located.path.start + markLength text) (located.path.stop + markLength text)
        located.path.value := by
  obtain ⟨text, items, hText, hAccounted, hItems, hPaths⟩ :=
    paths_importsOf (List.ne_nil_of_mem hLocated)
  have hMem := hPaths.subset (List.mem_map_of_mem hLocated)
  exact ⟨text, hText, hAccounted, TypeScript.StringAt.withMark ((paths_itemsOf hItems).1 _ hMem)⟩

/-- Imports follow one another. -/
theorem importsOf_ordered (source fileName : String) :
    (importsOf source fileName).Pairwise fun l r => l.path.stop ≤ r.path.start := by
  by_cases hNil : importsOf source fileName = []
  · rw [hNil]
    exact .nil
  · obtain ⟨text, items, -, -, hItems, hPaths⟩ := paths_importsOf hNil
    exact List.pairwise_map.1 ((paths_itemsOf hItems).2.sublist hPaths)

/-- What relocating a source asks for are replacements of ranges that follow one another. -/
theorem ordered_replacementsOf (rules : Rules) (source fileName : String) :
    Ordered source.toList (replacementsOf rules source fileName) := by
  refine ⟨fun r hr => ?_, ?_⟩
  · obtain ⟨moving, hMoving, rfl⟩ := List.mem_map.1 hr
    obtain ⟨text, -, hAccounted, hString⟩ := importsOf_placed (mem_movingImports.1 hMoving).1
    have hLength := hAccounted.blanks.byteLength_eq
    have hStop := hString.stop_le
    have hStart := hString.start_lt
    simp only [replacementOf]
    omega
  · rw [replacementsOf, List.pairwise_map]
    exact pairwise_movingImports (importsOf_ordered source fileName)

-- ---------------------------------------------------------------------------
-- Imports in the source
-- ---------------------------------------------------------------------------

/-- **Spans of located literals.** The span of an import lies in the source. There the source
spells the path of the import, between quotes of one kind, if and only if the literal is closed in
the text that the import was read from and recovery has not touched it.

`hText` names that text: the source itself, or what recovery has left of it. `hLocated` says that
the import is one of those found. Offsets are counted behind a byte order mark, so the span has to
be moved by the length of the mark before it is laid on the source. -/
theorem spelled_importsOf_iff (hText : workingText? source fileName = some text)
    (hLocated : located ∈ importsOf source fileName) :
    let start := located.path.start + markLength text
    let stop := located.path.stop + markLength text
    stop ≤ byteLength source.toList ∧
      (Spelled source.toList start stop located.path.value ↔
        Spelled text start stop located.path.value ∧ Agrees source.toList text start stop) := by
  intro start stop
  obtain ⟨text', hText', hAccounted, hString⟩ := importsOf_placed hLocated
  obtain rfl : text' = text := Option.some.inj (hText'.symm.trans hText)
  refine ⟨?_, hAccounted.spelled_iff hString⟩
  rw [← hAccounted.blanks.byteLength_eq]
  exact StringAt.stop_le hString

/-- A source with a byte order mark. -/
def markedLine : String := "\ufeffimport '@aws-cdk/core'"

theorem importsOf_markedLine :
    importsOf markedLine "a" = [⟨.sideEffect, ⟨7, 22, "@aws-cdk/core"⟩⟩] := by
  decide +kernel

theorem workingText?_markedLine : workingText? markedLine "a" = some markedLine.toList := by
  decide +kernel

/-- The line spells its import three bytes behind the span of the import. -/
theorem spelled_markedLine :
    workingText? markedLine "a" = some markedLine.toList ∧
      ⟨.sideEffect, ⟨7, 22, "@aws-cdk/core"⟩⟩ ∈ importsOf markedLine "a" ∧
      Spelled markedLine.toList 10 25 "@aws-cdk/core" := by
  have hLocated : ⟨.sideEffect, ⟨7, 22, "@aws-cdk/core"⟩⟩ ∈ importsOf markedLine "a" := by
    rw [importsOf_markedLine]
    exact List.mem_singleton_self _
  refine ⟨workingText?_markedLine, hLocated, ?_⟩
  refine (spelled_importsOf_iff workingText?_markedLine hLocated).2.2 ⟨?_, ?_⟩
  · exact ⟨'\'', .inl rfl, "\ufeffimport ".toList, "@aws-cdk/core".toList, [], by decide +kernel⟩
  · exact ⟨"\ufeffimport ".toList, "'@aws-cdk/core'".toList, [], "\ufeffimport ".toList, [],
      by decide +kernel⟩

/-- Not every import is spelled at its span: in a text with a byte order mark in front, the mark
counts in the source and not in the span, which is therefore three bytes too far to the left. -/
theorem not_spelled_importsOf :
    ¬∀ source fileName, ∀ located ∈ importsOf source fileName,
      Spelled source.toList located.path.start located.path.stop located.path.value := by
  intro h
  have hMem : ⟨.sideEffect, ⟨7, 22, "@aws-cdk/core"⟩⟩ ∈ importsOf markedLine "a" := by
    rw [importsOf_markedLine]
    exact List.mem_singleton_self _
  obtain ⟨quote, hQuote, hChar⟩ := (h _ _ _ hMem).charAt
  have hLetter : CharAt markedLine.toList 7 'r' :=
    ⟨"\ufeffimpo".toList, "t '@aws-cdk/core'".toList, by decide +kernel⟩
  obtain rfl : quote = 'r' := hChar.unique hLetter
  rcases hQuote with hEq | hEq <;> exact absurd hEq (by decide)

end Relocation

import Relocation.Recovery
import Relocation.TypeScript.Grammar

/-!
# Imports

The literals that name a module, found at the top level of a text. The text may have been blanked
on the way to a module; then each literal is held against the tokens of the source, so that
nothing is taken for code that only the blanking brought to light.

The lexicon of a text tells which byte ranges of it are tokens. The scanner by itself keeps comments
and the insides of templates out of its lexemes, so the lexicon tells code from text that merely
looks like it. Of several lexemes with one start the first counts.
-/

namespace Relocation

-- ---------------------------------------------------------------------------
-- The lexicon of a text
-- ---------------------------------------------------------------------------


namespace TypeScript

/-- A range of bytes. -/
structure ByteRange where
  start : Nat
  stop : Nat
  deriving Repr, DecidableEq, Inhabited

namespace ByteRange

/-- The ranges by their starts; those with the same start keep their order. -/
def byStart (ranges : List ByteRange) : List ByteRange :=
  ranges.mergeSort fun l r => l.start ≤ r.start

/-- Keeps the first of neighbouring ranges with the same start. -/
def distinctStarts : List ByteRange → List ByteRange
  | [] => []
  | r :: rs =>
    match distinctStarts rs with
    | [] => [r]
    | s :: rest => if s.start = r.start then r :: rest else r :: s :: rest

end ByteRange

/-- The token ranges of a text, sorted by start, one for each start. -/
structure Lexicon where
  ranges : List ByteRange
  deriving Repr, DecidableEq, Inhabited

namespace Lexicon

/-- The lexicon of ranges in any order. -/
def ofRanges (ranges : List ByteRange) : Lexicon :=
  ⟨ByteRange.distinctStarts (ByteRange.byStart ranges)⟩

/-- The lexicon of a text. -/
def ofText (dialect : Dialect) (text : List Char) : Lexicon :=
  ofRanges ((lexemesOf dialect text).map fun lexeme => ⟨lexeme.start, lexeme.stop⟩)

/-- Whether the range is exactly one token. -/
def isToken (lexicon : Lexicon) (range : ByteRange) : Bool :=
  match lexicon.ranges.find? fun token => token.start == range.start with
  | some token => token.stop == range.stop
  | none => false

end Lexicon

end TypeScript

open Text TypeScript

-- ---------------------------------------------------------------------------
-- Parsed sources
-- ---------------------------------------------------------------------------

/-- The forms in which a module is named. -/
inductive ImportShape where
  /-- `import 'path'` -/
  | sideEffect
  /-- `import <names> from 'path'` -/
  | from_
  /-- `import name = require('path')` -/
  | importEquals
  /-- `import <names> = require('path')`, which only recovery can read. -/
  | destructuringRequire
  /-- `require('path')` -/
  | require
  deriving Repr, DecidableEq, Inhabited

/-- A literal that names a module. -/
structure LocatedImport where
  shape : ImportShape
  path : Literal
  deriving Repr, DecidableEq, Inhabited

/-- The text without the byte order mark, which counts for nothing: offsets start behind it. -/
def withoutMark : List Char → List Char
  | '\ufeff' :: cs => cs
  | cs => cs

/-- A source as a module. -/
structure ParsedSource where
  items : List Item
  /-- Where the calls start that binding clauses led to. -/
  calls : List Nat
  /-- The tokens of the source, if it had to be blanked. -/
  lexicon : Option Lexicon
  deriving Repr, Inhabited

namespace ParsedSource

/-- Parses a source, with recovery from faults. -/
def ofSource? (source : List Char) (fileName : String) : Option ParsedSource :=
  let dialect := Dialect.ofFileName fileName
  (recover? (fun text => itemsOf dialect (withoutMark text)) source).map fun recovered =>
    { items := recovered.tree
      calls := recovered.working.calls
      lexicon :=
        if recovered.working.text = source then none
        else some (.ofText dialect (withoutMark source)) }

/-- Whether the range is a token of the source. Without blanking no doubt arises. -/
def isSourceToken (parsed : ParsedSource) (range : ByteRange) : Bool :=
  parsed.lexicon.all fun lexicon => lexicon.isToken range

/-- Whether a statement at the offset was led to by a binding clause. -/
def isDestructured (parsed : ParsedSource) (offset : Nat) : Bool := parsed.calls.contains offset

-- ---------------------------------------------------------------------------
-- Located imports
-- ---------------------------------------------------------------------------

/-- The import that an item is, if it is one. -/
def importOf? (parsed : ParsedSource) : Item → Option LocatedImport
  | .bareImport path => some ⟨.sideEffect, path⟩
  | .bindingImport path => some ⟨.from_, path⟩
  | .aliasImport path => some ⟨.importEquals, path⟩
  | .requireCall start path =>
    some ⟨if parsed.isDestructured start then .destructuringRequire else .require, path⟩
  | .other => none

/-- The imports of a source, in the order of their items. -/
def imports (parsed : ParsedSource) : List LocatedImport :=
  (parsed.items.filterMap parsed.importOf?).filter fun located =>
    parsed.isSourceToken ⟨located.path.start, located.path.stop⟩

end ParsedSource

end Relocation

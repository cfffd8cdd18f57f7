import Relocation.Proofs.Grammar.Operands
import Relocation.TypeScript.Grammar

/-!
# Statements and items of a module keep what is ahead

With the statements, the imports and the exports the readers of all phrases are there, and the knot
is tied: since each reader keeps what is ahead if the readers of the phrases in it do, all of them
do so, however deep the phrases may nest.

## Results

* `keeps_readNested`: every reader of a phrase keeps what is ahead.
-/

namespace Relocation.TypeScript.Grammar

set_option synthInstance.maxSize 10000

variable {text : List Char} {lo : Nat}

section

variable {sub : Nested} [∀ phrase, Keeps text lo (sub phrase)]

-- ---------------------------------------------------------------------------
-- Declarations
-- ---------------------------------------------------------------------------

instance keeps_readDeclarator (constant : Bool) (letForbidden : Bool) (inLoop : Bool) :
    Keeps text lo (readDeclarator sub constant letForbidden inLoop) := by
  unfold readDeclarator
  infer_instance

instance keeps_passOverStatement : Keeps text lo (passOverStatement sub) := by
  unfold passOverStatement
  refine .bind inferInstance fun _ => .whileYes (.bind inferInstance fun ends => ?_)
  split
  · infer_instance
  · refine .bind inferInstance fun _ => .bind inferInstance fun token? => ?_
    split <;> infer_instance

instance keeps_seesEmptyLoopHead : Keeps text lo (seesEmptyLoopHead sub) := by
  unfold seesEmptyLoopHead
  infer_instance

instance keeps_readVariables (inLoop : Bool) : Keeps text lo (readVariables sub inLoop) := by
  unfold readVariables
  infer_instance

instance keeps_seesLetDeclaration : Keeps text lo seesLetDeclaration := by
  unfold seesLetDeclaration
  infer_instance

instance keeps_readResources? : Keeps text lo (readResources? sub) := by
  unfold readResources?
  infer_instance

instance keeps_readEnumMember : Keeps text lo (readEnumMember sub) := by
  have hComma : Keeps text lo (supply (.sym ",")) := keeps_supply rfl
  unfold readEnumMember
  refine .bind inferInstance fun token => ?_
  dsimp only
  split <;> infer_instance

instance keeps_readEnum : Keeps text lo (readEnum sub) := by
  unfold readEnum
  infer_instance

instance keeps_readInterface : Keeps text lo (readInterface sub) := by
  unfold readInterface
  infer_instance

instance keeps_readTypeAlias : Keeps text lo (readTypeAlias sub) := by
  unfold readTypeAlias
  infer_instance

instance keeps_readNamespace : Keeps text lo (readNamespace sub) := by
  unfold readNamespace
  infer_instance

instance keeps_readAmbientModule : Keeps text lo (readAmbientModule sub) := by
  unfold readAmbientModule
  refine .bind inferInstance fun isGlobal => ?_
  dsimp only
  split
  · infer_instance
  · refine .bind inferInstance fun token => ?_
    split <;> infer_instance

instance keeps_readWordDeclaration? (word : String) (certain : Bool) :
    Keeps text lo (readWordDeclaration? sub word certain) := by
  unfold readWordDeclaration?
  dsimp only
  split
  -- the word `module` may announce a name space as well
  case h_4 =>
    refine .bind inferInstance fun apart => ?_
    split
    · infer_instance
    · refine .bind inferInstance fun _ => .bind inferInstance fun token => ?_
      split <;> infer_instance
  all_goals infer_instance

instance keeps_readConstantEnum? : Keeps text lo (readConstantEnum? sub) := by
  unfold readConstantEnum?
  infer_instance

instance keeps_readAmbient? : Keeps text lo (readAmbient? sub) := by
  have hWord : Keeps text lo (do
      match ← token? with
      | some (.word word) => readWordDeclaration? sub word true
      | _ => pure false) := by
    refine .bind inferInstance fun token? => ?_
    split <;> infer_instance
  unfold readAmbient?
  infer_instance

-- ---------------------------------------------------------------------------
-- Statements
-- ---------------------------------------------------------------------------

instance keeps_readSubstatement : Keeps text lo (readSubstatement sub) := by
  unfold readSubstatement
  infer_instance

instance keeps_readCondition : Keeps text lo (readCondition sub) := by
  unfold readCondition
  infer_instance

instance keeps_readLabel : Keeps text lo readLabel := by
  unfold readLabel
  infer_instance

instance keeps_readLoopParts : Keeps text lo (readLoopParts sub) := by
  unfold readLoopParts
  infer_instance

instance keeps_readLoopSource : Keeps text lo (readLoopSource sub) := by
  unfold readLoopSource
  infer_instance

instance keeps_readLoopResource? : Keeps text lo readLoopResource? := by
  unfold readLoopResource?
  infer_instance

instance keeps_readLoopHead : Keeps text lo (readLoopHead sub) := by
  unfold readLoopHead
  refine .bind inferInstance fun declares => ?_
  dsimp only
  split
  · infer_instance
  · refine .bind inferInstance fun isEmpty => ?_
    split
    · infer_instance
    · refine .bind inferInstance fun isResource => ?_
      split
      · infer_instance
      · refine .bind inferInstance fun first => .bind inferInstance fun goesThrough => ?_
        split
        · split <;> infer_instance
        · infer_instance

instance keeps_readFor : Keeps text lo (readFor sub) := by
  unfold readFor
  infer_instance

instance keeps_readDo : Keeps text lo (readDo sub) := by
  unfold readDo
  infer_instance

instance keeps_readIf : Keeps text lo (readIf sub) := by
  unfold readIf
  infer_instance

instance keeps_readSwitch : Keeps text lo (readSwitch sub) := by
  unfold readSwitch
  infer_instance

instance keeps_readCatch : Keeps text lo (readCatch sub) := by
  unfold readCatch
  infer_instance

instance keeps_readFinally : Keeps text lo (readFinally sub) := by
  unfold readFinally
  infer_instance

instance keeps_readStrayHandler : Keeps text lo (readStrayHandler sub) := by
  unfold readStrayHandler
  infer_instance

instance keeps_readKeywordStatement? (word : String) (declarations : Bool) :
    Keeps text lo (readKeywordStatement? sub word declarations) := by
  unfold readKeywordStatement?
  split <;> infer_instance

instance keeps_readAwaitStatement : Keeps text lo (readAwaitStatement sub) := by
  unfold readAwaitStatement
  infer_instance

instance keeps_readAnnounced? (name : String) : Keeps text lo (readAnnounced? sub name) := by
  unfold readAnnounced?
  refine .bind inferInstance fun apart => ?_
  split
  · infer_instance
  · refine .bind inferInstance fun labels => ?_
    dsimp only
    split
    · infer_instance
    · split <;> infer_instance

instance keeps_readExpressionStatement (start : Nat) :
    Keeps text lo (readExpressionStatement sub start) := by
  have hEnd (e : Expression) : Keeps text lo (do
      if ← eatStatementEnd then
        match e.shape with
        | .requireCall path => return .requireCall start path
        | _ => return .other
      if (← token?).any Token.isBinaryOperator then
        let _ ← sub (.operators e 0)
        return .other
      else fault : Parse Item) := by
    refine .bind inferInstance fun ends => ?_
    split
    · split <;> infer_instance
    · infer_instance
  unfold readExpressionStatement
  refine .bind inferInstance fun e => ?_
  dsimp only
  split
  · refine .bind inferInstance fun announced => ?_
    split
    · infer_instance
    · exact hEnd e
  · exact hEnd e

instance keeps_readPlainStatement (start : Nat) (declarations : Bool) :
    Keeps text lo (readPlainStatement sub start declarations) := by
  unfold readPlainStatement
  refine .bind inferInstance fun isEnum => ?_
  split
  · infer_instance
  · refine .bind inferInstance fun token => ?_
    dsimp only
    split <;> infer_instance

instance keeps_readImportStatement? : Keeps text lo (readImportStatement? sub) := by
  unfold readImportStatement?
  infer_instance

instance keeps_readStatement (declarations : Bool) :
    Keeps text lo (readStatement sub declarations) := by
  unfold readStatement
  infer_instance

instance keeps_readBlock : Keeps text lo (readBlock sub) := by
  unfold readBlock
  infer_instance

instance keeps_readDecorators : Keeps text lo (readDecorators sub) := by
  unfold readDecorators
  infer_instance

-- ---------------------------------------------------------------------------
-- Imports and exports
-- ---------------------------------------------------------------------------

instance keeps_readPath : Keeps text lo readPath := by
  unfold readPath
  refine .bind inferInstance fun _ => .bind inferInstance fun lexeme? => ?_
  split <;> infer_instance

instance keeps_readAttributes : Keeps text lo (readAttributes sub) := by
  unfold readAttributes
  infer_instance

instance keeps_readSource : Keeps text lo (readSource sub) := by
  unfold readSource
  infer_instance

instance keeps_readExportedName : Keeps text lo readExportedName := by
  unfold readExportedName
  refine .bind inferInstance fun _ => ?_
  split <;> infer_instance

instance keeps_readLocalName : Keeps text lo readLocalName := by
  unfold readLocalName
  infer_instance

instance keeps_readImportedName : Keeps text lo readImportedName := by
  unfold readImportedName
  refine .bind inferInstance fun _ => ?_
  split <;> infer_instance

instance keeps_readExportSpecifier : Keeps text lo readExportSpecifier := by
  unfold readExportSpecifier
  refine .bind inferInstance fun _ => ?_
  split <;> infer_instance

instance keeps_readNames {readOne : Parse Unit} [Keeps text lo readOne] :
    Keeps text lo (readNames readOne) := by
  unfold readNames
  infer_instance

instance keeps_readAlias : Keeps text lo readAlias := by
  unfold readAlias
  infer_instance

instance keeps_readImportHead : Keeps text lo readImportHead := by
  unfold readImportHead
  repeat' first
    | infer_instance
    | refine .bind inferInstance fun _ => ?_
    | split

instance keeps_readImportedNames : Keeps text lo readImportedNames := by
  unfold readImportedNames
  infer_instance

instance keeps_readImport : Keeps text lo (readImport sub) := by
  unfold readImport
  refine .bind inferInstance fun isStatement => ?_
  split
  · infer_instance
  · refine .bind inferInstance fun _ => .bind inferInstance fun lexeme? => ?_
    split
    · infer_instance
    · refine .bind inferInstance fun head => ?_
      split <;> infer_instance

instance keeps_seesAsyncFunction : Keeps text lo seesAsyncFunction := by
  unfold seesAsyncFunction
  infer_instance

instance keeps_readDefault : Keeps text lo (readDefault sub) := by
  unfold readDefault
  infer_instance

instance keeps_readExportList : Keeps text lo (readExportList sub) := by
  unfold readExportList
  infer_instance

instance keeps_readExported (typeOnly : Bool) : Keeps text lo (readExported sub typeOnly) := by
  unfold readExported
  infer_instance

instance keeps_readExportedWord? : Keeps text lo (readExportedWord? sub) := by
  unfold readExportedWord?
  refine .bind inferInstance fun _ => ?_
  split <;> infer_instance

instance keeps_readExport : Keeps text lo (readExport sub) := by
  unfold readExport
  infer_instance

instance keeps_readItem : Keeps text lo (readItem sub) := by
  unfold readItem
  infer_instance

instance keeps_readModuleBlock : Keeps text lo (readModuleBlock sub) := by
  unfold readModuleBlock
  infer_instance

end

-- ---------------------------------------------------------------------------
-- All phrases
-- ---------------------------------------------------------------------------

theorem keeps_readPhrase {sub : Nested} [∀ phrase, Keeps text lo (sub phrase)] (phrase : Phrase) :
    Keeps text lo (readPhrase sub phrase) := by
  cases phrase <;> unfold readPhrase <;> infer_instance

instance keeps_readNested (depth : Nat) (phrase : Phrase) :
    Keeps text lo (readNested depth phrase) := by
  induction depth generalizing phrase with
  | zero =>
    unfold readNested
    infer_instance
  | succ depth ih =>
    unfold readNested
    exact keeps_readPhrase phrase

end Relocation.TypeScript.Grammar

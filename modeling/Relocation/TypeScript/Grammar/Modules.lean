import Relocation.TypeScript.Grammar.Statements

/-!
# Imports and exports

The items that only a module has. What they name by a path is remembered, all else is read for its
extent.
-/

namespace Relocation.TypeScript.Grammar

variable (sub : Nested)

-- ---------------------------------------------------------------------------
-- Paths
-- ---------------------------------------------------------------------------

/-- Reads the literal that names a module. -/
def readPath : Parse Literal := do
  let _ ← requireToken
  match ← current? with
  | some ⟨.str value, start, stop, _⟩ =>
    advance
    return ⟨start, stop, value⟩
  | _ => fault

/-- Reads the attributes of an import, if there are any on this line. -/
def readAttributes : Parse Unit := do
  if ← notM afterLineBreak <&&> (eatWord "assert" <||> eatWord "with") then
    let _ ← sub .object

/-- Reads the path of a module behind the word `from`, up to the end of the statement. -/
def readSource : Parse Literal := do
  expectWord "from"
  let path ← readPath
  readAttributes sub
  expectStatementEnd
  return path

-- ---------------------------------------------------------------------------
-- Names that are imported or exported
-- ---------------------------------------------------------------------------

/-- A name that a module exports. -/
inductive ExportedName where
  | word (text : String) (start : Nat)
  | string (start : Nat)
  deriving Repr, DecidableEq

/-- Reads a name that a module exports: any word, or a string. -/
def readExportedName : Parse ExportedName := do
  match ← current? with
  | some ⟨.str _, start, _, _⟩ =>
    advance
    return .string start
  | some ⟨.word text, start, _, _⟩ =>
    advance
    return .word text start
  | _ => fault

/-- Reads the name under which something is imported. -/
def readLocalName : Parse Unit := do
  let _ ← readBoundName false

/-- Whether a word cannot be the name under which something is imported. The word `import` itself
is let through. -/
def isRefusedLocalName (word : String) : Bool := isReserved word && word != "import"

/-- Reads an imported name, and the name under which it is imported if that is another one. A
reserved word needs another name, and so does a string. The word `type` before a name makes it
the name of a type. -/
def readImportedName : Parse Unit := do
  match ← readExportedName with
  | .string start => if ← eatWord "as" then readLocalName else faultAt start
  | .word first start =>
    if ← pure (first == "type") <&&> seesSomeWord then
      let secondStart ← position
      let second ← readAnyName
      if second == "as" then
        if ← seesSomeWord then
          let third ← readBoundName false
          if ← pure (third == "as") <&&> seesSomeWord then readLocalName
      else if ← eatWord "as" then readLocalName
      else if isRefusedLocalName second then faultAt secondStart
    else if ← eatWord "as" then readLocalName
    else if isRefusedLocalName first then faultAt start

/-- Reads a name that is exported, and the name under which it is exported. -/
def readExportSpecifier : Parse Unit := do
  let first ← readExportedName
  let typed ←
    match first with
    | .word "type" _ => seesSomeWord
    | _ => pure false
  if typed then
    let second ← readAnyName
    if second == "as" then
      if ← seesSomeWord then
        let third ← readAnyName
        if ← pure (third == "as") <&&> seesSomeWord then
          let _ ← readAnyName
      return ()
  if ← eatWord "as" then
    let _ ← readExportedName

/-- Reads names in braces, behind the opening one. Tells whether there was one. -/
def readNames (readOne : Parse Unit) : Parse Bool := do
  let names ← collect do
    if ← atEnd <||> seesSym "\x7d" then return none
    readOne
    unless ← seesSym "\x7d" do expectSym ","
    return some ()
  expectSym "\x7d"
  return !names.isEmpty

-- ---------------------------------------------------------------------------
-- Imports
-- ---------------------------------------------------------------------------

/-- Reads what a name is set equal to. -/
def readAlias : Parse Item := do
  expectSym "="
  let item ←
    if ← seesWord "require" <&&> seesSymAhead "(" then
      advance
      advance
      let path ← readPath
      expectSym ")"
      pure (Item.aliasImport path)
    else
      readEntityName false
      pure Item.other
  expectStatementEnd
  return item

/-- What the words at the start of an import lead to. -/
inductive ImportHead where
  /-- Nothing is bound so far. -/
  | unbound
  /-- The module itself is bound. -/
  | bound
  /-- A name is set equal to something. -/
  | alias_
  deriving Repr, DecidableEq

/-- Reads the words at the start of an import: a name for the module, perhaps with a modifier
before it that says what of the module is meant. -/
def readImportHead : Parse ImportHead := do
  unless ← seesReference do return .unbound
  let mut name ← readBoundName false
  let mut typeOnly := false
  if name == "type" then
    if ← seesAnySym ["*", "\x7b"] then return .unbound
    if ← seesReference then
      if ← notM (seesWord "from") <||> seesWordAhead "from" then
        typeOnly := true
        name ← readBoundName false
      else if ← seesSymAhead "=" then
        typeOnly := true
        name ← readAnyName
  if ← seesSym "=" then return .alias_
  if name == "source" || name == "defer" then
    if ← seesAnySym ["*", "\x7b"] then return .unbound
    if ← seesReference <&&> notM (seesWord "from") <||> seesWordAhead "from" then
      name ← readBoundName false
  unless ← seesWord "from" do expectSym ","
  return .bound

/-- Reads the names that an import binds apart from the module itself; tells whether there are
any. -/
def readImportedNames : Parse Bool := do
  if ← eatSym "*" then
    expectWord "as"
    readLocalName
    return true
  else if ← eatSym "\x7b" then readNames readImportedName
  else return false

/-- Reads an import. Nothing has to mark the end of one that is a path alone. -/
def readImport : Parse Item := do
  if ← readImportStatement? sub then return .other
  expectWord "import"
  match ← current? with
  | some ⟨.str _, _, _, _⟩ =>
    let path ← readPath
    readAttributes sub
    let _ ← eatStatementEnd
    return .bareImport path
  | _ =>
    match ← readImportHead with
    | .alias_ => readAlias
    | head =>
      let names ← readImportedNames
      let path ← readSource sub
      return if head == .bound || names then .bindingImport path else .bareImport path

-- ---------------------------------------------------------------------------
-- Exports
-- ---------------------------------------------------------------------------

/-- Whether an asynchronous function begins here. -/
def seesAsyncFunction : Parse Bool :=
  seesWord "async" <&&> seesWordAhead "function" <&&> notM beforeLineBreak

/-- Reads what is exported by default. -/
def readDefault : Parse Unit := do
  sub .decorators
  if ← seesWord "abstract" <&&> seesWordAhead "class" <&&> notM beforeLineBreak then
    advance
    return ← sub (.class_ false)
  if ← seesWord "abstract" <&&> seesWordAhead "interface" then advance
  if ← eatWord "interface" then readInterface sub
  else if ← seesWord "class" then sub (.class_ false)
  else if ← seesAsyncFunction then
    advance
    let _ ← readFunction sub true false
  else if ← seesWord "function" then
    let _ ← readFunction sub false false
  else
    let _ ← readValue sub
    expectStatementEnd

/-- Reads the names that are exported in a list, with their source. -/
def readExportList : Parse Unit := do
  if ← seesSym "*" then
    let renamed ← seesWordAhead "as"
    advance
    if renamed then
      advance
      let _ ← readExportedName
    let _ ← readSource sub
  else
    expectSym "\x7b"
    let _ ← readNames readExportSpecifier
    if ← seesWord "from" then
      let _ ← readSource sub
    else
      let _ ← eatStatementEnd

/-- Reads an exported declaration, or a list of names. -/
def readExported (typeOnly : Bool) : Parse Unit := do
  sub .decorators
  if typeOnly then return ← readExportList sub
  if ← seesWord "class" then sub (.class_ true)
  else if ← seesAsyncFunction then
    advance
    let _ ← readFunction sub true true
  else if ← seesWord "function" then
    let _ ← readFunction sub false true
  else if ← readConstantEnum? sub then return ()
  else if ← seesAnyWord ["var", "const"] <||> seesLetDeclaration then readVariables sub false
  else readExportList sub

/-- Reads a declaration that its word announces, on trial. -/
def readExportedWord? : Parse Bool := do
  match ← token? with
  | some (.word text) => trialBool (readWordDeclaration? sub text true)
  | _ => return false

/-- Reads an export. Only one that sets a name equal to a module names a path. -/
def readExport : Parse Item := do
  advance
  if ← eatWord "declare" then
    if ← readAmbient? sub then return .other
  if ← readExportedWord? sub then return .other
  if ← eatWord "import" then
    if ← seesWord "type" <&&> seesSomeWordAhead then advance
    let _ ← readAnyName
    return ← readAlias
  if ← eatSym "=" then
    let _ ← readExpression sub
    expectStatementEnd
  else if ← eatWord "as" then
    expectWord "namespace"
    let _ ← readName false
    expectStatementEnd
  else
    let typeOnly ← eatWord "type"
    if ← pure !typeOnly <&&> eatWord "default" then readDefault sub
    else readExported sub typeOnly
  return .other

-- ---------------------------------------------------------------------------
-- Items
-- ---------------------------------------------------------------------------

/-- Reads an item of a module. -/
def readItem : Parse Item := do
  let start ← position
  sub .decorators
  if ← seesWord "import" then readImport sub
  else if ← seesWord "export" then readExport sub
  else within Modes.enclosed (readPlainStatement sub start true)

/-- Reads module items in braces. -/
def readModuleBlock : Parse Unit := do
  expectSym "\x7b"
  whileYes do
    if ← atEnd <||> seesSym "\x7d" then return false
    let _ ← readItem sub
    return true
  expectSym "\x7d"

end Relocation.TypeScript.Grammar

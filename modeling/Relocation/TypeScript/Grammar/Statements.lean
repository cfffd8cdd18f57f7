import Relocation.TypeScript.Grammar.Declarations
import Relocation.TypeScript.Grammar.Operators

/-!
# Statements

A statement ends at a semicolon, before a closing brace, at a line break or at the end of the
text, except that the parts of a loop head need their semicolons. Only the expression statements
are told apart, because a call of `require` may be one.
-/

namespace Relocation.TypeScript.Grammar

variable (sub : Nested)

/-- Reads a statement that is part of another one. -/
def readSubstatement : Parse Unit := do
  let _ ← sub (.statement false)

/-- Reads an expression in parentheses. -/
def readCondition : Parse Unit := do
  expectSym "("
  let _ ← readFullExpression sub
  expectSym ")"

/-- Reads a label that a statement refers to. -/
def readLabel : Parse Unit := do
  let _ ← readName !(← modes).isGenerator

-- ---------------------------------------------------------------------------
-- Loops
-- ---------------------------------------------------------------------------

/-- Reads the rest of a loop head behind its first part. -/
def readLoopParts : Parse Unit := do
  unless ← eatSym ";" do
    let _ ← readFullExpression sub
    expectSym ";"
  unless ← seesSym ")" do
    let _ ← readFullExpression sub

/-- Reads what a loop goes through, from the word before it on. -/
def readLoopSource : Parse Bool := do
  let isOf ← seesWord "of"
  advance
  let _ ← if isOf then readValue sub else readFullExpression sub
  return isOf

/-- Reads a resource in a loop head, if there is one. -/
def readLoopResource? : Parse Bool :=
  trialBool do
    let _ ← eatWord "await"
    unless ← eatWord "using" do return false
    if ← seesWord "of" then return false
    let _ ← readBoundName false
    seesAnyWord ["of", "in"]

/-- Reads a loop head; tells whether it goes through the values of something. -/
def readLoopHead : Parse Bool := do
  let declares ← seesAnyWord ["const", "var"] <||> seesLetDeclaration
  if declares then
    readVariables sub true
    if ← seesAnyWord ["of", "in"] then return ← readLoopSource sub
  else if ← seesSym ";" then pure ()
  else if ← readLoopResource? then return ← readLoopSource sub
  else
    let first ← within (fun m => { m with inIsOperator := false }) (readExpression sub)
    if ← seesAnyWord ["of", "in"] then
      match first.assignmentFault with
      | some offset => faultAt offset
      | none => return ← readLoopSource sub
  expectSym ";"
  readLoopParts sub
  return false

/-- Reads a loop from the word `for` on. Only values can be waited for. -/
def readFor : Parse Unit := do
  advance
  let awaitStart ← position
  let awaits ← eatWord "await"
  expectSym "("
  let throughValues ← within (fun m => { m with inLoopHead := true }) (readLoopHead sub)
  expectSym ")"
  readSubstatement sub
  if awaits && !throughValues then faultAt awaitStart

/-- Reads a loop from the word `do` on. -/
def readDo : Parse Unit := do
  advance
  readSubstatement sub
  expectWord "while"
  readCondition sub
  let _ ← eatStatementEnd

-- ---------------------------------------------------------------------------
-- Branches
-- ---------------------------------------------------------------------------

/-- Reads a statement from the word `if` on. -/
def readIf : Parse Unit := do
  advance
  readCondition sub
  readSubstatement sub
  if ← eatWord "else" then readSubstatement sub

/-- Reads a statement from the word `switch` on. -/
def readSwitch : Parse Unit := do
  advance
  readCondition sub
  expectSym "\x7b"
  whileYes do
    if ← eatWord "case" then
      let _ ← readFullExpression sub
    else unless ← eatWord "default" do return false
    expectSym ":"
    whileYes do
      if ← atEnd <||> seesSym "\x7d" <||> seesAnyWord ["case", "default"] then return false
      let _ ← sub (.statement true)
      return true
    return true
  expectSym "\x7d"

/-- Reads the handler of faults, if there is one. -/
def readCatch : Parse Unit := do
  if ← eatWord "catch" then
    if ← eatSym "(" then
      let _ ← sub .binding
      if ← eatSym ":" then within Modes.type_ (sub .type_)
      expectSym ")"
    sub .block

/-- Reads the block that is run in any case, if there is one. -/
def readFinally : Parse Unit := do
  if ← eatWord "finally" then sub .block

/-- Reads a handler that belongs to nothing; faults in it are passed over. -/
def readStrayHandler : Parse Unit := do
  orElse (readCatch sub) fun _ => pure ()
  orElse (readFinally sub) fun _ => pure ()

-- ---------------------------------------------------------------------------
-- Statements by their word
-- ---------------------------------------------------------------------------

/-- Reads a statement that begins with the keyword in hand, if the keyword begins one. -/
def readKeywordStatement? (word : String) (declarations : Bool) : Parse Bool := do
  match word with
  | "break" | "continue" =>
    advance
    unless ← eatStatementEnd do
      readLabel
      expectStatementEnd
    return true
  | "debugger" =>
    advance
    expectStatementEnd
    return true
  | "do" =>
    readDo sub
    return true
  | "for" =>
    readFor sub
    return true
  | "function" =>
    let _ ← readFunction sub false true
    return true
  | "class" =>
    sub (.class_ true)
    return true
  | "if" =>
    readIf sub
    return true
  | "return" =>
    advance
    unless ← seesStatementEnd do
      let _ ← readFullExpression sub
    expectStatementEnd
    return true
  | "switch" =>
    readSwitch sub
    return true
  | "throw" =>
    advance
    if ← afterLineBreak then fault
    let _ ← readFullExpression sub
    expectStatementEnd
    return true
  | "catch" | "finally" =>
    readStrayHandler sub
    return true
  | "try" =>
    advance
    sub .block
    readCatch sub
    readFinally sub
    return true
  | "with" | "while" =>
    advance
    readCondition sub
    readSubstatement sub
    return true
  | "var" =>
    readVariables sub false
    return true
  | "const" =>
    unless declarations do return false
    readVariables sub false
    return true
  | "let" =>
    unless ← pure declarations <&&> seesLetDeclaration do return false
    readVariables sub false
    return true
  | _ => return false

/-- Reads a statement that begins with the word `await`. Whatever follows the operand begins a
statement of its own. -/
def readAwaitStatement : Parse Unit := do
  let start ← position
  advance
  unless ← readResources? sub do
    let awaited ← readAwait sub start
    let _ ← within Modes.withIn (sub (.operators awaited 0))
    let _ ← eatStatementEnd

-- ---------------------------------------------------------------------------
-- Expression statements
-- ---------------------------------------------------------------------------

/-- Reads what a name that begins a statement announces: a labelled statement or a declaration. -/
def readAnnounced? (name : String) : Parse Bool := do
  if ← pure (name == "interface") <&&> afterLineBreak then
    let _ ← eatStatementEnd
    return true
  if ← eatSym ":" then
    if ← seesWord "function" then
      let _ ← readFunction sub false true
    else readSubstatement sub
    return true
  let declared ←
    match name with
    | "declare" => readAmbient? sub
    | "global" =>
      if ← seesSym "\x7b" then
        sub .moduleBlock
        pure true
      else pure false
    | _ => readWordDeclaration? sub name false
  if declared then return true
  if ["public", "static", "abstract"].contains name then
    if ← eatWord "interface" then
      readInterface sub
      return true
  return false

/-- Reads an expression as a statement that starts at the given offset. -/
def readExpressionStatement (start : Nat) : Parse Item := do
  let e ← readFullExpression sub
  match e.shape with
  | .name name => if ← readAnnounced? sub name then return .other
  | _ => pure ()
  if ← eatStatementEnd then
    match e.shape with
    | .requireCall path => return .requireCall start path
    | _ => return .other
  if (← token?).any Token.isBinaryOperator then
    let _ ← sub (.operators e 0)
    return .other
  else fault

/-- Reads a statement behind its decorators. -/
def readPlainStatement (start : Nat) (declarations : Bool) : Parse Item := do
  if ← readConstantEnum? sub then return .other
  match ← requireToken with
  | .word "await" =>
    if declarations then
      readAwaitStatement sub
      return .other
  | .word text => if ← readKeywordStatement? sub text declarations then return .other
  | .sym "\x7b" =>
    sub .block
    return .other
  | _ => pure ()
  if declarations then
    if ← readResources? sub then return .other
  if ← eatSym ";" then return .other
  if ← seesWord "async" <&&> seesWordAhead "function" <&&> notM beforeLineBreak then
    advance
    let _ ← readFunction sub true true
    return .other
  readExpressionStatement sub start

/-- Reads an import that is an expression, as a statement. -/
def readImportStatement? : Parse Bool := do
  if ← seesWord "import" <&&> (seesSymAhead "(" <||> seesSymAhead ".") then
    let _ ← readExpression sub
    let _ ← eatStatementEnd
    return true
  else return false

/-- Reads a statement. Imports and exports have their place in modules only. -/
def readStatement (declarations : Bool) : Parse Item := do
  let start ← position
  sub .decorators
  if ← readImportStatement? sub then return .other
  if ← seesAnyWord ["import", "export"] then fault
  within Modes.enclosed (readPlainStatement sub start declarations)

/-- Reads the statements of a block in braces. -/
def readBlock : Parse Unit := do
  expectSym "\x7b"
  whileYes do
    if ← atEnd <||> seesSym "\x7d" then return false
    let _ ← sub (.statement true)
    return true
  expectSym "\x7d"

/-- Reads the decorators that stand here. -/
def readDecorators : Parse Unit :=
  whileYes do
    unless ← eatSym "@" do return false
    if ← eatSym "(" then
      let _ ← readExpression sub
      expectSym ")"
    else
      let start ← position
      let name ← readName false
      let _ ← readTrailers sub (.expression ⟨start, .name name⟩) true false
    if ← seesSym "<" then sub .typeArguments
    if ← seesSym "(" then
      let _ ← readArguments sub
    return true

end Relocation.TypeScript.Grammar

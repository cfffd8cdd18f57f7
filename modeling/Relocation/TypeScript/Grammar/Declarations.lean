import Relocation.TypeScript.Grammar.Structures

/-!
# Declarations

Declarations of variables, enumerations, interfaces, types and name spaces. Those that begin with
a word that is no keyword are told from expressions by what stands behind the word.
-/

namespace Relocation.TypeScript.Grammar

variable (sub : Nested)

-- ---------------------------------------------------------------------------
-- Variables
-- ---------------------------------------------------------------------------

/-- Reads a declared variable with its value. A pattern must have a value, unless the declaration
has no body, is constant, or stands in the head of a loop. -/
def readDeclarator (constant letForbidden inLoop : Bool) : Parse Unit := do
  let start ← position
  let binding ← readBinding sub letForbidden
  if binding == .name then
    let _ ← eatSym "!"
  let _ ← readOptionalAnnotation sub
  if ← pure inLoop <&&> seesAnyWord ["in", "of"] then return ()
  if ← eatSym "=" then
    let _ ← sub .assignment
  else
    let m ← modes
    unless m.isAmbient || constant || binding == .name do faultAt start

/-- Passes over the text up to the end of a statement, behind an expression that may fail. -/
def passOverStatement : Parse Unit := do
  let skipped : Parse Unit := do
    let _ ← readExpression sub
  orElse skipped fun _ => pure ()
  whileYes do
    if ← eatStatementEnd then return false
    advance
    match ← token? with
    | some (.malformed _) => return false
    | _ => return true

/-- Whether the head of a loop goes on here although no variable has been declared. -/
def seesEmptyLoopHead : Parse Bool :=
  lookAhead do
    advance
    let _ ← sub .assignment
    seesSym ")"

/-- Reads a declaration of variables from its first word on. Behind one that does not end, the
text is passed over. -/
def readVariables (inLoop : Bool) : Parse Unit := do
  let isVar ← seesWord "var"
  let constant ← seesWord "const"
  advance
  if inLoop then
    if ← seesAnyWord ["in", "of"] <&&> seesEmptyLoopHead sub then return ()
  let withIn := !isVar || !inLoop
  whileYes do
    if ← atEnd <||> seesSym ";" then return false
    within (fun m => { m with inIsOperator := m.inIsOperator || withIn })
      (readDeclarator sub constant (!isVar) inLoop)
    eatSym ","
  unless inLoop do
    unless ← eatStatementEnd do passOverStatement sub

/-- Whether the token makes a declaration of the word `let` before it. -/
def followsLet : Token → Bool
  | .word text => !isKeyword text || ["let", "yield", "await"].contains text
  | .sym symbol => symbol == "\x7b" || symbol == "["
  | _ => false

/-- Whether a declaration of variables begins with the word `let` in hand. -/
def seesLetDeclaration : Parse Bool :=
  seesWord "let" <&&> return (← tokenAhead?).any followsLet

/-- Reads a declaration of resources if there is one: a name must follow on the same line. -/
def readResources? : Parse Bool := do
  if ← notM (seesWord "using") <||> beforeLineBreak then return false
  unless ← seesReferenceAhead do return false
  advance
  whileYes do
    readDeclarator sub false false false
    eatSym ","
  return true

-- ---------------------------------------------------------------------------
-- Enumerations
-- ---------------------------------------------------------------------------

/-- Reads a member of an enumeration. A token that fits nowhere counts as a comma. -/
def readEnumMember : Parse Unit := do
  match ← requireToken with
  | .str _ | .number => advance
  | .sym "[" =>
    advance
    let _ ← readExpression sub
    expectSym "]"
  | _ =>
    let _ ← readAnyName
  if ← eatSym "=" then
    let _ ← sub .assignment
  else unless ← seesAnySym [",", "\x7d"] do
    let _ ← requireToken
    advance
    supply (.sym ",")

/-- Reads an enumeration behind its word. -/
def readEnum : Parse Unit := do
  let _ ← readAnyName
  expectSym "\x7b"
  readDelimited (seesSym "\x7d") (readEnumMember sub) true
  expectSym "\x7d"

-- ---------------------------------------------------------------------------
-- Interfaces, types and name spaces
-- ---------------------------------------------------------------------------

/-- Reads an interface behind its word. What is extended a second time is passed over. -/
def readInterface : Parse Unit := do
  let _ ← readAnyName
  readOptionalTypeParameters sub
  if ← eatWord "extends" then readHeritage sub
  if ← seesWord "extends" then
    whileYes do
      if ← atEnd <||> seesSym "\x7b" then return false
      advance
      return true
  within Modes.type_ (readTypeMembers sub)

/-- Reads the definition of a type behind its word. -/
def readTypeAlias : Parse Unit := do
  let _ ← readAnyName
  readOptionalTypeParameters sub
  readTypeBehind sub (.sym "=")
  expectStatementEnd

/-- Reads a name space behind its word. -/
def readNamespace : Parse Unit := do
  let _ ← readAnyName
  whileYes do
    if ← eatSym "." then
      let _ ← readAnyName
      return true
    else return false
  sub .moduleBlock

/-- Reads a module without a body of its own, from its name on. -/
def readAmbientModule : Parse Unit := do
  if ← seesWord "global" then advance
  else
    match ← requireToken with
    | .str _ => advance
    | _ => fault
  if ← seesSym "\x7b" then sub .moduleBlock else expectStatementEnd

-- ---------------------------------------------------------------------------
-- Declarations by their word
-- ---------------------------------------------------------------------------

/-- Reads the declaration that the word announces, if it does so. With `certain` the word is still
in hand and must announce one; otherwise it is behind, and what stands here decides. -/
def readWordDeclaration? (word : String) (certain : Bool) : Parse Bool := do
  let pass : Parse Unit := do
    if certain then advance
  let named := pure certain <||> seesReference
  match word with
  | "abstract" =>
    unless ← pure certain <||> seesWord "class" <&&> notM afterLineBreak do return false
    pass
    sub (.class_ true)
    return true
  | "enum" =>
    unless ← named do return false
    pass
    readEnum sub
    return true
  | "interface" =>
    unless ← named do return false
    pass
    readInterface sub
    return true
  | "module" =>
    if ← afterLineBreak then return false
    pass
    match ← requireToken with
    | .str _ =>
      readAmbientModule sub
      return true
    | _ =>
      unless ← named do return false
      readNamespace sub
      return true
  | "namespace" =>
    unless ← named do return false
    pass
    readNamespace sub
    return true
  | "type" =>
    unless ← pure certain <||> notM afterLineBreak <&&> seesReference do return false
    pass
    readTypeAlias sub
    return true
  | _ => return false

/-- Reads an enumeration that is constant, if there is one. -/
def readConstantEnum? : Parse Bool := do
  if ← seesWord "const" <&&> seesWordAhead "enum" then
    advance
    advance
    readEnum sub
    return true
  else return false

/-- Reads a declaration behind the word `declare`, if there is one. -/
def readAmbient? : Parse Bool :=
  within (fun m => { m with isAmbient := true }) do
    if ← seesWord "function" then
      let _ ← readFunction sub false true
      return true
    if ← seesWord "class" then
      sub (.class_ true)
      return true
    if ← readConstantEnum? sub then return true
    if ← seesAnyWord ["const", "var", "let"] then
      readVariables sub false
      return true
    if ← seesWord "global" then
      readAmbientModule sub
      return true
    match ← token? with
    | some (.word text) => readWordDeclaration? sub text true
    | _ => return false

end Relocation.TypeScript.Grammar

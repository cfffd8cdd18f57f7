import Relocation.TypeScript.Grammar.Names
import Relocation.TypeScript.Grammar.Phrase

/-!
# Types

Types are read for their extent only. Where the text could go on in two ways, the grammar looks
ahead: a parenthesis may open a function type, a brace a mapped type, and a bracket an index
signature.
-/

namespace Relocation.TypeScript.Grammar

variable (sub : Nested)

-- ---------------------------------------------------------------------------
-- Lists
-- ---------------------------------------------------------------------------

/-- Reads elements separated by commas up to what closes them, which stays in hand. With `lenient`
a comma may be missing. -/
def readDelimited (closes : Parse Bool) (readElement : Parse Unit) (lenient : Bool) :
    Parse Unit :=
  whileYes do
    if ← closes then return false
    readElement
    if ← eatSym "," then return true
    if ← closes then return false
    if lenient then return true
    fault

/-- Reads elements up to a closing brace, which stays in hand. -/
def readMembers (readMember : Parse Unit) : Parse Unit :=
  whileYes do
    if ← seesSym "\x7d" then return false
    readMember
    return true

-- ---------------------------------------------------------------------------
-- Parts that many types share
-- ---------------------------------------------------------------------------

/-- Reads a type behind a token that announces it. -/
def readTypeBehind (token : Token) : Parse Unit :=
  within Modes.type_ do
    expect token
    sub .type_

/-- Reads a type if the token that announces it is in hand. -/
def readOptionalTypeBehind (token : Token) : Parse Unit :=
  within Modes.type_ do
    if ← eat token then sub .type_

/-- Reads the type of a name, if there is one. -/
def readOptionalAnnotation : Parse Bool := do
  if ← seesSym ":" then
    readTypeBehind sub (.sym ":")
    return true
  else return false

/-- Reads the parameters of a type, if there are any. -/
def readOptionalTypeParameters : Parse Unit := do
  if ← seesSym "<" then sub .typeParameters

/-- Reads the arguments of a type with angle brackets alone. -/
def readPlainTypeArguments : Parse Unit :=
  within (fun m => { m with anglesJoin := false }) (sub .typeArguments)

/-- Reads the arguments of a type, if there are any on this line. -/
def readOptionalTypeArguments : Parse Unit := do
  if ← notM afterLineBreak <&&> seesSym "<" then readPlainTypeArguments sub

/-- Reads names separated by dots. A dot without a name behind it ends the list. -/
def readEntityName (reservedAllowed : Bool) : Parse Unit := do
  let _ ← readAnyName
  whileYes do
    if ← eatSym "." then
      unless ← seesSym "#" <||> seesSomeWord do return false
      let _ ← if reservedAllowed then readAnyName else readName false
      return true
    else return false

/-- Reads parameters that stand in a type: they have no default values. -/
def readSignatureParameters : Parse (List Binding) := do
  let parameters ← sub .parameters
  expectSym ")"
  if parameters.contains .withDefault then fault
  return parameters

/-- Reads the type that a function returns, or the condition that it decides, behind the symbol
that announces it. -/
def readReturnType (symbol : String) : Parse Unit :=
  within Modes.type_ do
    expectSym symbol
    let asserts ← seesWord "asserts" <&&> seesReferenceAhead
    if asserts then advance
    let decides ← seesReference <&&> seesWordAhead "is" <&&> notM beforeLineBreak
    if !asserts && !decides then sub .type_
    else
      let _ ← readAnyName
      if decides then
        advance
        sub .type_

/-- Reads a return type, if there is one. -/
def readOptionalReturnType : Parse Unit := do
  if ← seesSym ":" then readReturnType sub ":"

-- ---------------------------------------------------------------------------
-- Function types
-- ---------------------------------------------------------------------------

/-- Skips the start of a parameter. -/
def skipParameterStart : Parse Bool := do
  let _ ← eatParameterModifier
  if ← seesSomeWord then
    advance
    return true
  if ← seesAnySym ["\x7b", "["] then
    orElse (do
        let _ ← sub .binding
        return true)
      fun _ => return false
  else return false

/-- Whether the parenthesis in hand opens the parameters of a function type. -/
def opensFunctionType : Parse Bool :=
  lookAhead do
    advance
    if ← seesAnySym [")", "..."] then return true
    if ← skipParameterStart sub then
      if ← seesAnySym [":", ",", "?", "="] then return true
      if ← eatSym ")" then return (← seesSym "=>")
    return false

/-- Reads the type of a function, or of a constructor behind its `new`. -/
def readFunctionType : Parse Unit := do
  readOptionalTypeParameters sub
  expectSym "("
  let _ ← readSignatureParameters sub
  readReturnType sub "=>"

-- ---------------------------------------------------------------------------
-- Members of object types
-- ---------------------------------------------------------------------------

/-- Reads what ends a member. -/
def readMemberEnd : Parse Unit := do
  unless ← eatSym "," do expectStatementEnd

/-- Reads the signature of a call. -/
def readCallSignature : Parse Unit := do
  readOptionalTypeParameters sub
  expectSym "("
  let _ ← readSignatureParameters sub
  readOptionalReturnType sub
  readMemberEnd

/-- Reads the name of a member. -/
def readMemberKey : Parse Unit := do
  if ← eatSym "[" then
    let _ ← sub .assignment
    expectSym "]"
  else
    within (fun m => { m with inPropertyName := true }) do
      match ← requireToken with
      | .number | .str _ =>
        let _ ← sub .operand
      | _ =>
        let _ ← readMemberName

/-- Whether the bracket in hand opens an index signature. -/
def opensIndexSignature : Parse Bool :=
  lookAhead do
    advance
    if ← seesReference then
      advance
      seesAnySym [":", ","]
    else return false

/-- Reads an index signature if there is one. -/
def readIndexSignature? : Parse Bool := do
  if ← seesSym "[" <&&> opensIndexSignature then
    advance
    let _ ← readAnyName
    unless ← eatSym "," do expectSym ":"
    within Modes.type_ (sub .type_)
    expectSym "]"
    let _ ← readOptionalAnnotation sub
    readMemberEnd
    return true
  else return false

/-- Reads an accessor of an object type if there is one. -/
def readAccessorSignature? (readOnly : Bool) : Parse Bool :=
  trialBool do
    if readOnly then return false
    let reads ← eatWord "get"
    unless reads do expectWord "set"
    readMemberKey sub
    expectSym "("
    if reads then
      expectSym ")"
      let _ ← readOptionalAnnotation sub
      readMemberEnd
      return true
    else
      let parameters ← readSignatureParameters sub
      if parameters.isEmpty then return false
      readMemberEnd
      return true

/-- Reads a property or a method. -/
def readPropertyOrMethod (readOnly : Bool) : Parse Unit := do
  readMemberKey sub
  let _ ← eatSym "?"
  if ← seesAnySym ["(", "<"] then
    if readOnly then fault
    readCallSignature sub
  else
    let _ ← readOptionalAnnotation sub
    readMemberEnd

/-- Whether the signature of a call comes next but one. -/
def opensCallAhead : Parse Bool :=
  lookAhead do
    advance
    seesAnySym ["(", "<"]

/-- Reads a member of an object type. -/
def readTypeMember : Parse Unit := do
  if ← seesAnySym ["(", "<"] then readCallSignature sub
  else if ← seesWord "new" <&&> opensCallAhead then
    advance
    readCallSignature sub
  else
    let readOnly := (← eatModifier? ["readonly"] false).isSome
    if ← readIndexSignature? sub then return ()
    if ← readAccessorSignature? sub readOnly then return ()
    readPropertyOrMethod sub readOnly

/-- Reads the members of an object type in braces. -/
def readTypeMembers : Parse Unit := do
  expectSym "\x7b"
  readMembers (readTypeMember sub)
  expectSym "\x7d"

/-- Whether the brace in hand opens a mapped type. -/
def opensMappedType : Parse Bool :=
  lookAhead do
    advance
    if ← eatSym "+" <||> eatSym "-" then return (← seesWord "readonly")
    let _ ← eatWord "readonly"
    unless ← eatSym "[" do return false
    unless ← seesReference do return false
    advance
    seesWord "in"

/-- Reads a sign before what it adds or takes away, or the thing alone. -/
def readSigned (token : Token) : Parse Unit := do
  if ← eatSym "+" <||> eatSym "-" then expect token
  else
    let _ ← eat token

/-- Reads a mapped type. -/
def readMappedType : Parse Unit := do
  expectSym "\x7b"
  readSigned (.word "readonly")
  expectSym "["
  let _ ← readAnyName
  readTypeBehind sub (.word "in")
  if ← eatWord "as" then sub .type_
  expectSym "]"
  readSigned (.sym "?")
  readOptionalTypeBehind sub (.sym ":")
  expectStatementEnd
  expectSym "\x7d"

-- ---------------------------------------------------------------------------
-- Operands of types
-- ---------------------------------------------------------------------------

/-- Reads a stretch of template text; tells whether it is the last one. Only a tag may stand
before malformed escapes. -/
def readTemplatePiece (tagged : Bool) : Parse Bool := do
  match ← requireToken with
  | .templateText fault? =>
    advance
    match fault? with
    | some offset => unless tagged do throw offset
    | none => pure ()
    seesSym "\x60"
  | _ => fault

/-- Reads a template with something in its holes. -/
def readTemplate (tagged : Bool) (readHole : Parse Unit) : Parse Unit := do
  advance
  let isLast ← readTemplatePiece tagged
  unless isLast do
    whileYes do
      expectSym "$\x7b"
      readHole
      expectSym "\x7d"
      return !(← readTemplatePiece tagged)
  expectSym "\x60"

/-- Reads a reference to a named type. -/
def readTypeReference : Parse Unit := do
  let _ ← eatParameterModifier
  readEntityName true
  readOptionalTypeArguments sub

/-- Reads the type of a module, behind its `import`. -/
def readImportType : Parse Unit := do
  advance
  expectSym "("
  let _ ← requireToken
  advance
  if ← eatSym "," <&&> seesSym "\x7b" then
    advance
    expectWord "with"
    expectSym ":"
    let _ ← sub .object
    let _ ← eatSym ","
    expectSym "\x7d"
  expectSym ")"
  if ← eatSym "." then readEntityName false
  if ← seesSym "<" then sub .typeArguments

/-- Reads the type of a value. -/
def readTypeQuery : Parse Unit := do
  advance
  if ← seesWord "import" then readImportType sub else readEntityName true
  readOptionalTypeArguments sub

/-- Reads the rest of what is known about the present object. -/
def readThisPredicate : Parse Unit := do
  if ← eatWord "is" then within Modes.type_ (sub .type_)

/-- Reads an element of a tuple; tells whether it may be missing, or nothing if it is the rest. -/
def readTupleElement : Parse (Option Bool) := do
  let _ ← trial do
    let _ ← eatSym "..."
    let _ ← readAnyName
    let _ ← eatSym "?"
    expectSym ":"
    return some ()
  if ← eatSym "..." then
    sub .type_
    return none
  else
    sub .type_
    return some (← eatSym "?")

/-- Reads the elements of a tuple; tells whether one that must be there follows one that may be
missing. -/
def readTupleElements : Parse Bool := do
  let kinds ← collect do
    if ← seesSym "]" then return none
    let kind ← readTupleElement sub
    unless ← eatSym "," do
      unless ← seesSym "]" do fault
    return some kind
  return (kinds.dropWhile (· != some true)).contains (some false)

/-- Reads a tuple. -/
def readTuple : Parse Unit := do
  let start ← position
  advance
  let misplaced ← readTupleElements sub
  expectSym "]"
  if misplaced then faultAt start

/-- The words that name types of their own. -/
def typeWords : List String :=
  ["void", "null", "any", "boolean", "bigint", "never", "number", "object", "string", "symbol",
    "unknown", "undefined", "intrinsic"]

/-- Reads a type that starts with a word. -/
def readTypeWord (text : String) : Parse Unit := do
  if ["void", "yield", "null", "await", "break"].contains text || !isKeyword text then
    if ← pure (text == "asserts") <&&> seesWordAhead "this" then
      advance
      advance
      readThisPredicate sub
    else
      let dotted ← seesSymAhead "."
      if typeWords.contains text && !dotted then advance else readTypeReference sub
  else if text == "true" || text == "false" then advance
  else if text == "import" then readImportType sub
  else if text == "this" then
    advance
    if ← notM afterLineBreak <&&> seesWord "is" then readThisPredicate sub
  else if text == "typeof" then readTypeQuery sub
  else fault

/-- Reads a type without operators and without indices. -/
def readPrimaryType : Parse Unit := do
  match ← requireToken with
  | .word text => readTypeWord sub text
  | .str _ | .number | .bigInt => advance
  | .sym "\x60" => readTemplate false (sub .type_)
  | .sym "-" =>
    advance
    match ← requireToken with
    | .number | .bigInt => advance
    | _ => fault
  | .sym "\x7b" =>
    if ← opensMappedType then readMappedType sub else readTypeMembers sub
  | .sym "[" => readTuple sub
  | .sym "(" =>
    advance
    sub .type_
    expectSym ")"
  | _ => fault

/-- Reads a type with the brackets behind it. -/
def readIndexedType : Parse Unit := do
  readPrimaryType sub
  whileYes do
    if ← notM afterLineBreak <&&> eatSym "[" then
      unless ← eatSym "]" do
        sub .type_
        expectSym "]"
      return true
    else return false

-- ---------------------------------------------------------------------------
-- Operators on types
-- ---------------------------------------------------------------------------

/-- Reads operands with an operator between them, and perhaps before the first. -/
def readOperatorType (operator : String) (readConstituent : Parse Unit) : Parse Unit := do
  let _ ← eatSym operator
  readConstituent
  whileYes do
    if ← eatSym operator then
      readConstituent
      return true
    else return false

/-- Reads a type that is not conditional. -/
def readUnconditionalType : Parse Unit := do
  if ← seesSym "<" <||> seesSym "(" <&&> opensFunctionType sub then readFunctionType sub
  else if ← seesWord "new" <||> seesWord "abstract" <&&> seesWordAhead "new" then
    let _ ← eatWord "abstract"
    expectWord "new"
    readFunctionType sub
  else readOperatorType "|" (readOperatorType "&" (sub .typeOperand))

/-- Reads a type variable that is inferred, with its bound. The bound must not be the condition
of a conditional type. -/
def readInferredType : Parse Unit := do
  advance
  let _ ← readAnyName
  let _ ← trial do
    expectWord "extends"
    readUnconditionalType sub
    let bounds ← pure (← modes).noConditionalType <||> notM (seesSym "?")
    return if bounds then some () else none

/-- Reads a type without operators between types. -/
def readTypeOperand : Parse Unit := do
  if ← seesAnyWord ["keyof", "unique", "readonly"] then
    advance
    sub .typeOperand
  else if ← seesWord "infer" then readInferredType sub
  else within (fun m => { m with noConditionalType := false }) (readIndexedType sub)

/-- Reads a type. -/
def readType : Parse Unit := do
  readUnconditionalType sub
  if ← afterLineBreak <||> return (← modes).noConditionalType then return ()
  if ← eatWord "extends" then
    within (fun m => { m with noConditionalType := true }) (readUnconditionalType sub)
    within (fun m => { m with noConditionalType := false }) do
      expectSym "?"
      sub .type_
      expectSym ":"
      sub .type_

-- ---------------------------------------------------------------------------
-- Arguments and parameters of types
-- ---------------------------------------------------------------------------

/-- Reads the arguments of a type. A regular expression cannot follow them. -/
def readTypeArguments : Parse Unit := do
  within Modes.type_ <| outsideNesting do
    if ← seesSym "<<" then splitAngle else expectSym "<"
    readDelimited (seesSym ">") (sub .type_) false
  forbidOperand
  expectSym ">"

/-- Reads a parameter of a type with its modifiers, its bound and its default. -/
def readTypeParameter : Parse Unit := do
  whileYes do
    let modifier? ← eatModifier? ["public", "private", "protected", "readonly", "abstract",
      "const", "override", "in", "out"] false
    return modifier?.isSome
  let _ ← readAnyName
  readOptionalTypeBehind sub (.word "extends")
  readOptionalTypeBehind sub (.sym "=")

/-- Reads the parameters of a type. The bracket in hand may have been taken for that of a tag. -/
def readTypeParameters : Parse Unit :=
  within Modes.type_ <| outsideNesting do
    unless ← seesSym "<" <||> sees .tagStart do fault
    advance
    readDelimited (seesSym ">") (readTypeParameter sub) false
    expectSym ">"

/-- The reserved words that an operand may start with. -/
def operandWords : List String :=
  ["this", "super", "null", "true", "false", "function", "class", "new", "delete", "typeof", "void",
    "await", "yield"]

/-- Reads the arguments of a type on trial, where an operator may be meant as well: what follows
must not be an operand on the same line. -/
def readTypeArguments? : Parse Bool :=
  trialBool do
    sub .typeArguments
    if ← seesAnySym ["<", ">", "+", "-", "(", "\x60"] then return false
    match ← current? with
    | none => return true
    | some lexeme =>
      if lexeme.afterLineBreak then return true
      match lexeme.token with
      | .sym symbol =>
        return lexeme.token.isBinaryOperator
          || !(["[", "\x7b", "~", "!", "++", "--", "#"].contains symbol)
      | .word text =>
        if ["in", "instanceof"].contains text then return true
        if text == "import" then
          return ← notM (seesSymAhead "(" <||> seesSymAhead "<" <||> seesSymAhead ".")
        return isReserved text && !operandWords.contains text
      | .number | .bigInt | .str _ | .regex => return false
      | _ => return true

/-- Reads the types that a class or an interface builds on. -/
def readHeritage : Parse Unit :=
  readDelimited (seesSym "\x7b" <||> seesAnyWord ["implements", "extends"])
    (do
      let start ← position
      let name ← readAnyName
      let _ ← sub (.trailers (.expression ⟨start, .name name⟩) false false)
      if ← seesSym "<" then sub .typeArguments)
    false

end Relocation.TypeScript.Grammar

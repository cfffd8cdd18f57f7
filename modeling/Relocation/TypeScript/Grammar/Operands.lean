import Relocation.TypeScript.Grammar.Operations

/-!
# Operands

Literals, names, parentheses, and what may follow them: members, indices, calls and templates.
Parentheses may also be the head of an arrow function; their items are read as expressions and
seen as parameters once the arrow turns up.
-/

namespace Relocation.TypeScript.Grammar

variable (sub : Nested)

-- ---------------------------------------------------------------------------
-- Items in parentheses
-- ---------------------------------------------------------------------------

/-- Whether the word `async` in hand begins something asynchronous. -/
def opensAsync : Parse Bool := do
  unless ← seesWord "async" do return false
  match ← tokenAhead? with
  | some (.sym symbol) => return symbol == "("
  | some (.word text) => return text == "function" || !isKeyword text
  | _ => return false

/-- Reads an item as an expression. Before a name no conditional expression is read, because a
question mark may belong to a parameter. -/
def readParenElement : Parse Element := do
  if ← seesReference <||> seesSym "..." <&&> seesReferenceAhead then
    if ← eatSym "..." then return ⟨true, ← within Modes.withIn (readBinary sub)⟩
    let value ← readBinary sub
    return ⟨false, ← finishAssignment sub value⟩
  else readSpreadable sub

/-- Reads the question mark behind an item: that of a parameter, or that of a conditional
expression, which the item then becomes. -/
def readParenQuestion (element : Element) : Parse (Element × Bool) := do
  unless ← seesSym "?" do return (element, false)
  let ofParameter ← do
    match ← tokenAhead? with
    | some (.sym symbol) => pure ([",", ":", ")", "="].contains symbol)
    | _ => pure false
  if ofParameter then
    advance
    match element.value.shape with
    | .name _ => return (element, true)
    | _ => faultAt element.value.start
  else if element.spread then return (element, false)
  else
    advance
    readBranches sub
    return (⟨false, ⟨element.value.start, .operation⟩⟩, false)

/-- Reads an item. -/
def readParenItem : Parse ParenItem := do
  let (element, optional) ← readParenQuestion sub (← readParenElement sub)
  if ← pure optional <||> seesSym ":" then
    match element.value.bindingFault with
    | some offset => faultAt offset
    | none => pure ()
    let _ ← readOptionalAnnotation sub
    if ← eatSym "=" then
      let _ ← sub .assignment
    return .parameter element.value.start
  else return .element element

/-- Reads the items in parentheses. An arrow behind a name makes a function of it. -/
def readParenItems : Parse (List ParenItem) := do
  expectSym "("
  let items ← collect do
    if ← atEnd <||> seesSym ")" then return none
    let isAsync ← opensAsync
    let start ← position
    modify fun s => { s with arrowStart := some start }
    let _ ← eatParameterModifier
    let item ← readParenItem sub
    let mut found := [item]
    if ← eatSym "=>" then
      match item with
      | .element ⟨_, ⟨_, .name _⟩⟩ | .parameter _ =>
        let _ ← readArrowBody sub isAsync
        found := [item, .element ⟨false, ⟨start, .arrow⟩⟩]
      | _ => pure ()
    unless ← seesSym ")" do expectSym ","
    return some found
  expectSym ")"
  return items.flatten

-- ---------------------------------------------------------------------------
-- Parentheses
-- ---------------------------------------------------------------------------

/-- Reports an item that is no parameter. -/
def checkParameters (items : List ParenItem) : Parse Unit := do
  match items.findSome? ParenItem.parameterFault with
  | some offset => faultAt offset
  | none => pure ()

/-- Reads an arrow function in a branch of a conditional expression, on trial: the colon in hand
may belong to either. -/
def readBranchArrow? (items : List ParenItem) (isAsync : Bool) : Parse Bool := do
  let m ← modes
  unless ← pure m.inConditional <&&> seesSym ":" do return false
  trialBool do
    readReturnType sub ":"
    expectSym "=>"
    checkParameters items
    let _ ← within Modes.enclosed (readArrowBody sub isAsync)
    if m.colonAhead then seesSym ":" else return true

/-- Reads the arrow and the body behind the items of its head. -/
def readArrow (start : Nat) (items : List ParenItem) (isAsync allowed : Bool) :
    Parse Expression := do
  if ← afterLineBreak then fault
  unless allowed do fault
  expectSym "=>"
  checkParameters items
  let isBlock ← readArrowBody sub isAsync
  let arrow : Expression := ⟨start, .arrow⟩
  let operated ← pure isBlock <&&> return (← token?).any Token.isBinaryOperator
  if operated then sub (.operators arrow 0)
  else return arrow

/-- The expression that the items are if no arrow follows. -/
def ofParenItems (start : Nat) (items : List ParenItem) (isAsync : Bool) : Parse Expression := do
  if isAsync then return ⟨start, .other⟩
  if items.isEmpty then faultAt start
  let spread? := items.findSome? fun
    | .element ⟨true, value⟩ => some value.start
    | _ => none
  match spread? with
  | some offset => faultAt offset
  | none => return ⟨start, .parenthesized⟩

/-- Reads parentheses, or the arrow function that they head. `isAsync` says that the word `async`
stood before them, at `start`. -/
def readParenthesized (start : Nat) (isAsync arrowAllowed : Bool) : Parse Expression := do
  let items ← within (fun m => m.enclosed.withIn) (readParenItems sub)
  if ← readBranchArrow? sub items isAsync then return ⟨start, .arrow⟩
  let typed ←
    if ← pure !(← modes).colonAhead <&&> seesSym ":" then
      trialBool do
        readReturnType sub ":"
        seesSym "=>"
    else pure false
  let declares := items.any fun
    | .parameter _ => true
    | .element _ => false
  if ← pure (declares || typed) <||> seesSym "=>" then
    readArrow sub start items isAsync arrowAllowed
  else ofParenItems start items isAsync

-- ---------------------------------------------------------------------------
-- Names
-- ---------------------------------------------------------------------------

/-- Reads what may follow the word `async` as a name: the parameter of an arrow function. -/
def readAsyncArrow (start : Nat) : Parse Expression := do
  if ← pure (← modes).inLoopHead <&&> seesWord "of" <&&> notM (seesSymAhead "=>") then
    return ⟨start, .name "async"⟩
  let parameter ← readBoundName false
  if ← pure (parameter == "as") <&&> notM (seesSym "=>") then
    within Modes.type_ (sub .type_)
    return ⟨start, .place⟩
  expectSym "=>"
  let _ ← readArrowBody sub true
  return ⟨start, .arrow⟩

/-- Reads a name, or the arrow function whose parameter it is. -/
def readNameOrArrow (start : Nat) (arrowAllowed : Bool) : Parse Expression := do
  let text ← readName !(← modes).isGenerator
  let mayBeHead ← pure arrowAllowed <&&> notM afterLineBreak
  if ← pure (text == "async" && mayBeHead) <&&> seesReference then readAsyncArrow sub start
  else if ← pure mayBeHead <&&> eatSym "=>" then
    let _ ← readArrowBody sub false
    return ⟨start, .arrow⟩
  else return ⟨start, .name text⟩

-- ---------------------------------------------------------------------------
-- Primary operands
-- ---------------------------------------------------------------------------

/-- Reads an operand that starts with the word `async` if it is asynchronous. -/
def readAsyncOperand? (start : Nat) (arrowAllowed : Bool) : Parse (Option Expression) := do
  if ← seesWordAhead "function" <&&> notM beforeLineBreak then
    advance
    readFunctionOperand sub true
    return some ⟨start, .other⟩
  if ← pure arrowAllowed <&&> seesSymAhead "<" then
    let taken ← trialBool do
      advance
      readGenericArrow? sub
    if taken then return some ⟨start, .arrow⟩
  if ← pure arrowAllowed <&&> seesSymAhead "(" <&&> notM beforeLineBreak then
    advance
    return some (← readParenthesized sub start true true)
  return none

/-- Reads an operand without what may follow it. -/
def readPrimary : Parse Expression := do
  let start ← position
  let arrowAllowed := (← get).arrowStart == some start
  let other : Expression := ⟨start, .other⟩
  match ← current? with
  | some ⟨.number, _, _, _⟩ | some ⟨.bigInt, _, _, _⟩ | some ⟨.word "this", _, _, _⟩
  | some ⟨.word "null", _, _, _⟩ | some ⟨.word "true", _, _, _⟩
  | some ⟨.word "false", _, _, _⟩ =>
    advance
    return other
  | some ⟨.str value, start, stop, _⟩ =>
    advance
    return ⟨start, .string ⟨start, stop, value⟩⟩
  | some ⟨.sym "[", _, _, _⟩ => readArray sub
  | some ⟨.sym "\x7b", _, _, _⟩ => sub .object
  | some ⟨.word "function", _, _, _⟩ =>
    readFunctionOperand sub false
    return other
  | some ⟨.sym "/", _, _, _⟩ | some ⟨.sym "/=", _, _, _⟩ =>
    rereadPattern
    expect .regex
    return other
  | some ⟨.sym "\x60", _, _, _⟩ =>
    within Modes.enclosed <| readTemplate false do
      let _ ← readFullExpression sub
    return other
  | some ⟨.sym "(", _, _, _⟩ => readParenthesized sub start false arrowAllowed
  | found =>
    if found.any fun lexeme => lexeme.token == .word "async" then
      match ← readAsyncOperand? sub start arrowAllowed with
      | some e => return e
      | none => pure ()
    sub .decorators
    if ← seesWord "class" then
      sub (.class_ false)
      return other
    if ← seesSomeWord then readNameOrArrow sub start arrowAllowed
    else if ← eatSym "#" then
      let _ ← readAnyName
      return other
    else fault

-- ---------------------------------------------------------------------------
-- What follows an operand
-- ---------------------------------------------------------------------------

/-- The expression that accesses a part of the callee. -/
def accessOf (callee : Callee) (optional : Bool) : Expression :=
  match callee with
  | .expression e => ⟨e.start, if optional || e.isChain then .chain else .place⟩
  | _ => ⟨callee.start, .place⟩

/-- Reads a template whose tag is the callee. -/
def readTagged : Parse Unit :=
  within Modes.enclosed <| readTemplate true do
    let _ ← readFullExpression sub

/-- Reads the arguments of a type behind a callee, on trial: they must belong to a call or to a
template. -/
def readGenericTrailer? (callee : Expression) (calls : Bool) : Parse (Option Expression) := do
  unless ← seesAnySym ["<", "<<"] do return none
  let mayBeArrow := calls && (← get).arrowStart == some callee.start && callee.isName "async"
  within (fun m => { m with anglesJoin := true }) <| trial do
    if ← pure mayBeArrow <&&> readGenericArrow? sub then return some ⟨callee.start, .arrow⟩
    sub .typeArguments
    if ← pure calls <&&> seesSym "(" then
      return some (callOf (.expression callee) (← readArguments sub))
    else if ← seesSym "\x60" then
      readTagged sub
      return some ⟨callee.start, .other⟩
    else return none

/-- Reads the question mark of an access that may be cut short; its dot stays in hand. -/
def eatOptionalMark : Parse Bool := do
  if ← seesSym "?" <&&> seesSymAhead "." then
    advance
    return true
  else return false

/-- Reads an index in brackets behind the callee, if there is one. -/
def readIndex? (callee : Callee) (optional : Bool) : Parse (Option Expression) := do
  let dotted ← pure optional <&&> seesSym "." <&&> seesSymAhead "["
  if dotted then advance
  unless ← eatSym "[" do return none
  let _ ← readFullExpression sub
  expectSym "]"
  match callee, optional with
  | .module_ _, _ | .superclass _, true => fault
  | _, _ => return some (accessOf callee optional)

/-- Reads a call of the callee, if there is one. -/
def readCall? (callee : Callee) (optional calls : Bool) : Parse (Option Expression) := do
  let dotted ← pure optional <&&> seesSym "." <&&> (seesSymAhead "(" <||> seesSymAhead "<")
  if dotted then advance
  unless ← pure dotted <||> pure calls <&&> seesSym "(" do return none
  if ← seesSym "<" then sub .typeArguments
  let arguments ← readArguments sub
  if optional then
    match callee with
    | .expression e => return some ⟨e.start, .chain⟩
    | _ => fault
  else return some (callOf callee arguments)

/-- Reads a member behind the dot. -/
def readMember (callee : Callee) (optional : Bool) : Parse Expression := do
  let name? ← readMemberName
  let generic ← do
    if ← seesAnySym ["<", "<<"] then readTypeArguments? sub else pure false
  match callee with
  | .module_ start =>
    match name? with
    | some "meta" => return ⟨start, .other⟩
    | some _ =>
      let _ ← readArguments sub
      return ⟨start, .other⟩
    | none => fault
  | .superclass start => if optional then fault else return ⟨start, .place⟩
  | .expression e =>
    if generic then return ⟨e.start, .place⟩ else return accessOf callee optional

/-- Reads one thing that follows the callee; tells whether there was one. -/
def readTrailer (callee : Callee) (calls indices : Bool) : Parse (Expression × Bool) := do
  if ← notM afterLineBreak <&&> seesSym "!" then
    forbidOperand
    advance
    match callee with
    | .expression e => return (if e.isChain then e else ⟨e.start, .place⟩, true)
    | _ => fault
  match callee with
  | .expression e =>
    match ← readGenericTrailer? sub e calls with
    | some found => return (found, true)
    | none => pure ()
  | _ => pure ()
  let optional ← eatOptionalMark
  if indices then
    match ← readIndex? sub callee optional with
    | some found => return (found, true)
    | none => pure ()
  match ← readCall? sub callee optional calls with
  | some found => return (found, true)
  | none => pure ()
  if ← eatSym "." then return (← readMember sub callee optional, true)
  match callee with
  | .expression e =>
    if ← seesSym "\x60" then
      readTagged sub
      return (⟨e.start, .other⟩, true)
    else return (e, false)
  | _ => fault

/-- Reads what follows the callee, at most `bound` times. -/
def readTrailersWithin (calls indices : Bool) : (bound : Nat) → Callee → Parse Expression
  | 0, callee => return ⟨callee.start, .other⟩
  | bound + 1, callee => do
    match ← readTrailer sub callee calls indices with
    | (e, true) => readTrailersWithin calls indices bound (.expression e)
    | (e, false) => return e

/-- Reads all that follows the callee. -/
def readTrailers (callee : Callee) (calls indices : Bool) : Parse Expression := do
  readTrailersWithin sub calls indices (← get).limit callee

-- ---------------------------------------------------------------------------
-- Constructions, imports and calls
-- ---------------------------------------------------------------------------

/-- Reads what follows the word `import` in an expression. -/
def readImportOperand (start : Nat) (calls : Bool) : Parse Expression := do
  if ← eatSym "." then
    match ← readAnyName with
    | "meta" => readTrailers sub (.expression ⟨start, .other⟩) calls true
    | "defer" | "source" => readTrailers sub (.module_ start) calls true
    | _ => fault
  else readTrailers sub (.module_ start) calls true

/-- Reads a construction behind the word `new`. -/
def readConstruction (start : Nat) : Parse Expression := do
  if ← eatSym "." then
    expectWord "target"
    return ← readTrailers sub (.expression ⟨start, .other⟩) false true
  let callee ← sub .operand
  if callee.isArrow then return callee
  if callee.isChain then faultAt callee.start
  if ← seesAnySym ["<", "<<"] then
    let _ ← trialBool do
      readPlainTypeArguments sub
      seesSym "("
  if ← seesSym "(" then
    let _ ← readArguments sub
    readTrailers sub (.expression ⟨start, .other⟩) false true
  else return ⟨start, .bareConstruction⟩

/-- Reads an operand with its members and indices, but without calls. -/
def readOperand : Parse Expression :=
  within (fun m => { m with anglesJoin := true }) do
    let start ← position
    if ← eatWord "new" then readConstruction sub start
    else if ← eatWord "super" then readTrailers sub (.superclass start) false true
    else if ← eatWord "import" then readImportOperand sub start false
    else
      let primary ← readPrimary sub
      if primary.isArrow then return primary
      let generic ← do
        if ← seesAnySym ["<", "<<"] then readTypeArguments? sub else pure false
      let operand := if generic then ⟨primary.start, .place⟩ else primary
      readTrailers sub (.expression operand) false true

/-- Reads an operand with all that follows it. -/
def readLeftHand : Parse Expression := do
  let start ← position
  if (← get).scanner.dialect.markup then
    match ← requireToken with
    | .markupText =>
      advance
      return ⟨start, .other⟩
    | .tagStart => return ← sub .element
    | .sym "<" => unless ← seesSymAhead "!" do return ← sub .element
    | _ => pure ()
  if ← eatWord "super" then readTrailers sub (.superclass start) true true
  else if ← eatWord "import" then readImportOperand sub start true
  else
    let callee ← readOperand sub
    if callee.isArrow then return callee
    if ← seesAnySym ["<", "<<"] then
      let _ ← trialBool do
        sub .typeArguments
        seesSym "("
    if ← pure (callee.shape != .bareConstruction) <&&> seesSym "(" then
      let call := callOf (.expression callee) (← readArguments sub)
      readTrailers sub (.expression call) true true
    else return callee

end Relocation.TypeScript.Grammar

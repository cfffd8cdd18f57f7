import Relocation.TypeScript.Grammar.Operands

/-!
# Prefix operators and whole expressions

Operands with the operators before them, and expressions up to an assignment. Where markup is
allowed, an angle bracket first counts as the start of a tag; only if no element can be read from
it does it open the parameters of a generic arrow function.
-/

namespace Relocation.TypeScript.Grammar

variable (sub : Nested)

-- ---------------------------------------------------------------------------
-- Operands with prefix operators
-- ---------------------------------------------------------------------------

/-- Reads what is waited for, behind the word `await`. Where nothing can follow, the word is a
name. -/
def readAwait (start : Nat) : Parse Expression := do
  if ← seesSym "*" then fault
  let m ← modes
  let closed ← seesAnySym [")", "]", ","] <||> seesStatementEnd
  if closed && !m.isAsync then return ⟨start, .name "await"⟩
  let _ ← sub .unary
  return ⟨start, .other⟩

/-- Reads an assertion behind its opening angle bracket. -/
def readAssertion (start : Nat) : Parse Expression := do
  if ← eatWord "const" then
    expectSym ">"
    let _ ← sub .unary
    return ⟨start, .other⟩
  else
    within Modes.type_ (sub .type_)
    expectSym ">"
    let _ ← sub .unary
    return ⟨start, .place⟩

/-- Reads an operand with the operators before it and the step behind it. -/
def readUnary : Parse Expression := do
  let start ← position
  let operation : Expression := ⟨start, .operation⟩
  if ← pure !(← get).scanner.dialect.markup <&&> eatSym "<" then return ← readAssertion sub start
  if ← seesAnySym ["++", "--"] then
    advance
    let _ ← sub .unary
    return operation
  if ← seesAnyWord ["delete", "void", "typeof"] <||> seesAnySym ["+", "-", "~", "!"] then
    advance
    let _ ← orElse (sub .unary) fun offset => return ⟨offset, .invalid⟩
    return operation
  if ← eatWord "await" then return ← readAwait sub start
  let operand ← readLeftHand sub
  if ← pure operand.isArrow <||> afterLineBreak then return operand
  if ← seesAnySym ["++", "--"] then
    advance
    return operation
  else return operand

-- ---------------------------------------------------------------------------
-- Expressions up to an assignment
-- ---------------------------------------------------------------------------

/-- Whether an expression may start with the token. -/
def startsExpression : Token → Bool
  | .sym symbol =>
    ["(", "[", "\x7b", "\x60", "+", "-", "~", "!", "++", "--", "/", "/=", "#", "@", "<"].contains
      symbol
  | .word text => !(["in", "instanceof"].contains text)
  | .number | .bigInt | .str _ | .regex | .tagStart | .malformed _ => true
  | _ => false

/-- Reads what a generator yields, from the word `yield` on. -/
def readYield : Parse Expression := do
  let start ← position
  advance
  let other : Expression := ⟨start, .other⟩
  if ← seesStatementEnd then return other
  let token ← token?
  if token == some (.sym "*") || token.any startsExpression then
    let _ ← eatSym "*"
    let _ ← sub .assignment
  return other

/-- Reads an expression that does not start with type parameters. -/
def readPlainAssignment : Parse Expression := do
  if ← pure (← modes).isGenerator <&&> seesWord "yield" then return ← readYield sub
  let mayBeHead :=
    match ← requireToken with
    | .word text => !isKeyword text || text == "yield"
    | .sym symbol => symbol == "("
    | _ => false
  let start ← position
  modify fun s => { s with arrowStart := if mayBeHead then some start else none }
  let condition ← readConditional sub
  match condition.shape with
  | .arrow | .operation => return condition
  | _ => finishAssignment sub condition

/-- Reads an arrow function with type parameters, on trial. -/
def readGenericFunction? : Parse (Option Expression) := do
  unless ← seesSym "<" <||> sees .tagStart do return none
  let named ← do
    match ← tokenAhead? with
    | some (.word _) | some (.markupName _) => pure true
    | _ => pure false
  unless named do return none
  within Modes.enclosed <| trial do
    let start ← position
    if ← sees .tagStart then forgetTag
    sub .typeParameters
    let arrow ← readPlainAssignment sub
    return if arrow.isArrow then some ⟨start, .arrow⟩ else none

/-- Reads an expression without a comma. -/
def readAssignment : Parse Expression := do
  if ← sees .tagStart then
    match ← trial (do return some (← readPlainAssignment sub)) with
    | some e => return e
    | none => forgetTag
  match ← readGenericFunction? sub with
  | some e => return e
  | none => readPlainAssignment sub

end Relocation.TypeScript.Grammar

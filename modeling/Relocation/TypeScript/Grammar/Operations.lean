import Relocation.TypeScript.Grammar.Structures

/-!
# Operations

Binary operators, conditional expressions and assignments. An operand that fails before a binary
operator is passed over, and so is a missing operand behind a unary one.
-/

namespace Relocation.TypeScript.Grammar

variable (sub : Nested)

-- ---------------------------------------------------------------------------
-- Binary operators
-- ---------------------------------------------------------------------------

/-- How tightly the operators bind. -/
def operatorStrengths : List (Nat × List String) :=
  [(1, ["||", "??"]), (2, ["&&"]), (3, ["|"]), (4, ["^"]), (5, ["&"]),
    (6, ["==", "!=", "===", "!=="]), (7, ["<", "<=", ">", ">="]), (8, ["<<", ">>", ">>>"]),
    (9, ["+", "-"]), (10, ["*", "/", "%"]), (11, ["**"])]

/-- How tightly relations bind, among them `in`, `instanceof` and `as`. -/
def relationStrength : Nat := 7

/-- How tightly the token binds as a binary operator, if it is one here. -/
def strength? (m : Modes) : Token → Option Nat
  | .sym symbol => (operatorStrengths.find? fun entry => entry.2.contains symbol).map Prod.fst
  | .word "in" => if m.inIsOperator then some relationStrength else none
  | .word "instanceof" => some relationStrength
  | _ => none

/-- Reads a type that is asserted of an operand, behind the word in hand. -/
def readAsserted (left : Expression) : Parse Expression := do
  if ← seesWord "as" <&&> seesWordAhead "const" then
    advance
    advance
    return ⟨left.start, .other⟩
  else
    within Modes.type_ do
      advance
      sub .type_
    return ⟨left.start, .place⟩

/-- Reads the operators behind an operand that bind more tightly than the given strength. -/
def readOperators (left : Expression) (strength : Nat) : Parse Expression := do
  let asserts := pure (decide (strength < relationStrength)) <&&> seesWord "as"
  if ← notM afterLineBreak <&&> (asserts <||> seesWord "satisfies") then
    let asserted ← readAsserted sub left
    sub (.operators asserted strength)
  else
    match (← token?).bind (strength? (← modes)) with
    | none => return left
    | some found =>
      if found ≤ strength then return left
      let rightToLeft ← seesSym "**"
      advance
      let right ← sub .unary
      let _ ← sub (.operators right (if rightToLeft then found - 1 else found))
      sub (.operators ⟨left.start, .operation⟩ strength)

/-- Passes over an operand that failed, if a binary operator is in hand. -/
def passOverOperand (offset : Nat) : Parse Expression := do
  let invalid : Expression := ⟨offset, .invalid⟩
  match ← requireToken with
  | .word "instanceof" => return invalid
  | .word "in" => if (← modes).inIsOperator then return invalid else throw offset
  | token => if token.isBinaryOperator then return invalid else throw offset

/-- Reads operands with binary operators between them. -/
def readBinary : Parse Expression := do
  let left ← orElse (sub .unary) passOverOperand
  if left.isArrow then return left else sub (.operators left 0)

-- ---------------------------------------------------------------------------
-- Conditional expressions
-- ---------------------------------------------------------------------------

/-- Reads the two branches of a conditional expression. -/
def readBranches : Parse Unit := do
  let _ ← within
    (fun m => { m with inConditional := true, colonAhead := true, inIsOperator := true })
    (sub .assignment)
  expectSym ":"
  let _ ← within (fun m => { m with inConditional := true, colonAhead := false })
    (sub .assignment)

/-- Reads a conditional expression, or what could be its condition. -/
def readConditional : Parse Expression := do
  let test ← readBinary sub
  if test.isArrow then return test
  if ← eatSym "?" then
    readBranches sub
    return ⟨test.start, .operation⟩
  else return test

-- ---------------------------------------------------------------------------
-- Assignments
-- ---------------------------------------------------------------------------

/-- Reads the value that is assigned to the expression, if an assignment follows. -/
def finishAssignment (left : Expression) : Parse Expression := do
  match ← token? with
  | some (.sym symbol) =>
    if !assignmentOperators.contains symbol then return left
    if symbol == "=" then
      match left.assignmentFault with
      | some offset => faultAt offset
      | none => pure ()
      unless left.isTarget do faultAt left.start
    else unless left.isPlace do faultAt left.start
    advance
    let _ ← sub .assignment
    return ⟨left.start, .assignment⟩
  | _ => return left

end Relocation.TypeScript.Grammar

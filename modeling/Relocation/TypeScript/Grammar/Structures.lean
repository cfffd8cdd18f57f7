import Relocation.TypeScript.Grammar.Functions

/-!
# Objects, arrays and arguments

Literals that hold expressions. Objects and arrays remember what would be wrong with them as
patterns, since only the text behind them tells whether they are.
-/

namespace Relocation.TypeScript.Grammar

variable (sub : Nested)

/-- Reads an expression with commas. -/
def readExpression : Parse Expression := do
  let first ← sub .assignment
  if ← seesSym "," then
    whileYes do
      if ← eatSym "," then
        let _ ← sub .assignment
        return true
      else return false
    return ⟨first.start, .other⟩
  else return first

/-- Reads an expression with commas in which `in` is an operator. -/
def readFullExpression : Parse Expression := within Modes.withIn (readExpression sub)

/-- Reads an expression that may be spread. -/
def readSpreadable : Parse Element := do
  let spread ← eatSym "..."
  return ⟨spread, ← readValue sub⟩

-- ---------------------------------------------------------------------------
-- Arguments
-- ---------------------------------------------------------------------------

/-- Reads the arguments of a call in parentheses. -/
def readArguments : Parse (List Element) := within Modes.enclosed do
  expectSym "("
  let closes := atEnd <||> seesSym ")"
  let arguments ←
    if ← closes then pure []
    else
      let first ← readSpreadable sub
      let others ← collect do
        if ← closes then return none
        expectSym ","
        if ← seesSym ")" then return none
        return some (← readSpreadable sub)
      pure (first :: others)
  expectSym ")"
  return arguments

/-- The expression that calls a callee. -/
def callOf (callee : Callee) (arguments : List Element) : Expression :=
  let shape : Shape :=
    match callee, arguments with
    | .expression ⟨_, .name "require"⟩, [⟨false, ⟨_, .string path⟩⟩] => .requireCall path
    | .expression ⟨_, .chain⟩, _ => .chain
    | _, _ => .other
  ⟨callee.start, shape⟩

-- ---------------------------------------------------------------------------
-- Arrays
-- ---------------------------------------------------------------------------

/-- The first fault of a list in one of the two ways to read it. -/
def firstFault {α : Type} (fault? : α → Option Nat) (list : List α) : Option Nat :=
  list.findSome? fault?

/-- Reads an array. -/
def readArray : Parse Expression := within Modes.enclosed do
  let start ← position
  advance
  let elements ← collect do
    if ← atEnd <||> seesSym "]" then return none
    if ← eatSym "," then return some none
    let element ← readSpreadable sub
    unless ← seesSym "]" do expectSym ","
    return some (some element)
  expectSym "]"
  let values := elements.filterMap fun element? => element?.map Element.value
  return ⟨start, .structured (firstFault Expression.assignmentFault values)
    (firstFault Expression.bindingFault values)⟩

-- ---------------------------------------------------------------------------
-- Objects
-- ---------------------------------------------------------------------------

/-- What is wrong with a property if it is read as part of a pattern. -/
structure PropertyFaults where
  inAssignment : Option Nat
  inBinding : Option Nat
  deriving Repr, DecidableEq, Inhabited

namespace PropertyFaults

/-- A property that may stand in a pattern. -/
def none_ : PropertyFaults := ⟨none, none⟩

/-- A property that has no place in a pattern. -/
def method (start : Nat) : PropertyFaults := ⟨some start, some start⟩

/-- A property with a value. -/
def ofValue (e : Expression) : PropertyFaults := ⟨e.assignmentFault, e.bindingFault⟩

end PropertyFaults

/-- Whether the token may follow the name of a property in some form of it. -/
def mayFollowKey : Token → Bool
  | .sym symbol => ["(", "[", ":", ",", "?", "=", "*", "\x7d", "<"].contains symbol
  | .word _ | .str _ | .number => true
  | _ => false

/-- Reads a property that is headed by a word: a shorthand, or an accessor or a method behind a
modifier. -/
def readWordProperty (start : Nat) (text : String) : Parse PropertyFaults := do
  let _ ← eatSym "?"
  if ← seesAnySym ["=", ",", "\x7d"] then
    if ← eatSym "=" then
      let _ ← readValue sub
    return .none_
  if ["get", "set", "async"].contains text then
    let isAsync := text == "async"
    let isGenerator ← if isAsync then eatSym "*" else pure false
    let key ← readKey sub
    let _ ← readFunctionRest sub isAsync isGenerator
    return .method (if isAsync then key.start else start)
  fault

/-- Reads a property. Behind a name that nothing fits, it ends. -/
def readProperty : Parse PropertyFaults := do
  let start ← position
  if ← eatSym "..." then
    let value ← readValue sub
    return ⟨value.assignmentFault, none⟩
  if ← eatSym "*" then
    let key ← readKey sub
    let _ ← readFunctionRest sub false true
    return .method key.start
  let _ ← eatParameterModifier
  let key ← readKey sub
  unless (← token?).any mayFollowKey do return .none_
  if ← eatSym ":" then return .ofValue (← readValue sub)
  if ← seesAnySym ["(", "<"] then
    let _ ← readFunctionRest sub false false
    return .method key.start
  match key.name with
  | .word text => readWordProperty sub start text
  | _ => fault

/-- Reads an object. -/
def readObject : Parse Expression := within Modes.enclosed do
  let start ← position
  expectSym "\x7b"
  let faults ← collect do
    if ← eatSym "\x7d" then return none
    let property ← readProperty sub
    unless ← seesSym "\x7d" do expectSym ","
    return some property
  return ⟨start, .structured (firstFault PropertyFaults.inAssignment faults)
    (firstFault PropertyFaults.inBinding faults)⟩

end Relocation.TypeScript.Grammar

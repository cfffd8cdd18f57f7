import Relocation.TypeScript.Grammar.Bindings

/-!
# Functions

The parameters, the return type and the body of a function. A body may be missing where a
statement may end: such a function is a declaration only.
-/

namespace Relocation.TypeScript.Grammar

variable (sub : Nested)

-- ---------------------------------------------------------------------------
-- Parameters
-- ---------------------------------------------------------------------------

/-- Reads a parameter behind its decorators. -/
def readParameter : Parse Binding := do
  let _ ← eatParameterModifier
  let binding ← readBindingElement sub
  if ← eatSym "?" then
    if binding == .withDefault then
      unless (← modes).isAmbient do faultBehind
  let _ ← readOptionalAnnotation sub
  if ← eatSym "=" then
    let _ ← sub .assignment
    return .withDefault
  else return binding

/-- Reads a parameter that takes all remaining arguments, behind its dots. -/
def readRestParameter : Parse Unit := do
  let _ ← sub .binding
  if ← eatSym "=" then
    let _ ← sub .assignment
  let _ ← readOptionalAnnotation sub
  let _ ← eatSym "?"

/-- Reads what separates parameters. -/
def readParameterEnd : Parse Unit := do
  unless ← seesSym ")" do expectSym ","

/-- Reads the parameters of a function up to the closing parenthesis, which stays in hand. -/
def readParameters : Parse (List Binding) :=
  collect do
    if ← atEnd <||> seesSym ")" then return none
    sub .decorators
    let binding ←
      if ← eatSym "..." then
        readRestParameter sub
        pure Binding.rest
      else readParameter sub
    readParameterEnd
    return some binding

/-- Reads the parameters of a constructor, which may declare properties as well. Such a property
must have a name. -/
def readConstructorParameters : Parse Unit :=
  whileYes do
    if ← atEnd <||> seesSym ")" then return false
    sub .decorators
    if ← eatSym "..." then
      let _ ← sub .binding
      let _ ← readOptionalAnnotation sub
    else
      let access ← eatAccessModifier
      let overrides ← eatModifier? ["override"] false
      let readOnly ← eatModifier? ["readonly"] false
      let declares := access || overrides.isSome || readOnly.isSome
      let start ← position
      let binding ← readParameter sub
      if declares && (binding == .array || binding == .object) then faultAt start
    readParameterEnd
    return true

-- ---------------------------------------------------------------------------
-- Bodies
-- ---------------------------------------------------------------------------

/-- Reads a body, or the end of a statement in its place; tells whether there is a body. -/
def readOptionalBody : Parse Bool := do
  if ← notM (seesSym "\x7b") <&&> eatStatementEnd then return false
  else
    sub .block
    return true

/-- The surroundings inside a function. -/
def inFunction (isAsync isGenerator : Bool) (m : Modes) : Modes :=
  { m with isAsync := isAsync, isGenerator := isGenerator }

/-- Reads a function from its parameters on; tells whether it has a body. -/
def readFunctionRest (isAsync isGenerator : Bool) : Parse Bool :=
  within (inFunction isAsync isGenerator) do
    within Modes.type_ (readOptionalTypeParameters sub)
    expectSym "("
    let _ ← readParameters sub
    expectSym ")"
    readOptionalReturnType sub
    readOptionalBody sub

/-- Reads a function from the word `function` on; tells whether it has a body. -/
def readFunction (isAsync named : Bool) : Parse Bool := do
  advance
  let isGenerator ← eatSym "*"
  if named then
    let _ ← readBoundName false
  else readOptionalName false
  within Modes.enclosed (readFunctionRest sub isAsync isGenerator)

/-- Reads a function that is an operand; it must have a body. -/
def readFunctionOperand (isAsync : Bool) : Parse Unit := do
  unless ← readFunction sub isAsync false do fault

/-- Reads the body of an arrow function; tells whether it is a block. -/
def readArrowBody (isAsync : Bool) : Parse Bool :=
  within (inFunction isAsync false) do
    if ← seesSym "\x7b" then
      sub .block
      return true
    else
      let _ ← sub .assignment
      return false

/-- Reads a generic asynchronous arrow function from its type parameters on, on trial up to the
arrow. -/
def readGenericArrow? : Parse Bool := do
  unless ← seesSym "<" <||> sees .tagStart do return false
  let headed ← trialBool do
    sub .typeParameters
    expectSym "("
    let _ ← readParameters sub
    expectSym ")"
    readOptionalReturnType sub
    eatSym "=>"
  if headed then
    let _ ← readArrowBody sub true
  return headed

end Relocation.TypeScript.Grammar

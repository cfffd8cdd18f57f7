import Relocation.TypeScript.Grammar.Types

/-!
# Bindings

A binding is a name, or a pattern of names in brackets or braces. The same patterns serve as
parameters and as the targets of declarations.
-/

namespace Relocation.TypeScript.Grammar

variable (sub : Nested)

-- ---------------------------------------------------------------------------
-- Names of properties
-- ---------------------------------------------------------------------------

/-- The name of a property or of a class member. -/
inductive KeyName where
  | word (text : String)
  | string (value : String)
  /-- A number or an expression in brackets. -/
  | other
  | private_
  deriving Repr, DecidableEq, Inhabited

/-- The name of a property, with its place. -/
structure Key where
  start : Nat
  name : KeyName
  deriving Repr, DecidableEq, Inhabited

/-- Whether the name is that of a constructor. -/
def Key.isConstructor (key : Key) : Bool :=
  key.name == .word "constructor" || key.name == .string "constructor"

/-- Reads an expression without a comma in which `in` is an operator. -/
def readValue : Parse Expression := within Modes.withIn (sub .assignment)

/-- Reads the name of a property. Several expressions in the brackets are passed over. -/
def readKey : Parse Key :=
  within (fun m => { m with inPropertyName := true }) do
    let start ← position
    match ← requireToken with
    | .str value =>
      advance
      return ⟨start, .string value⟩
    | .word text =>
      advance
      return ⟨start, .word text⟩
    | .number | .bigInt =>
      advance
      return ⟨start, .other⟩
    | .sym "[" =>
      advance
      let _ ← readValue sub
      whileYes do
        if ← eatSym "," then
          let _ ← readValue sub
          return true
        else return false
      expectSym "]"
      return ⟨start, .other⟩
    | _ => fault

-- ---------------------------------------------------------------------------
-- Patterns
-- ---------------------------------------------------------------------------

/-- Reads a binding with a default value. -/
def readBindingElement : Parse Binding := do
  let binding ← sub .binding
  if ← eatSym "=" then
    let _ ← readValue sub
    return .withDefault
  else return binding

/-- Takes a question mark behind a pattern that has no value to come from. -/
def eatAmbientQuestionMark : Parse Unit := do
  if (← modes).isAmbient then
    let _ ← eatSym "?"

/-- Reads a pattern in brackets. -/
def readArrayBinding : Parse Unit := do
  advance
  whileYes do
    if ← atEnd <||> seesSym "]" then return false
    if ← eatSym "," then return true
    if ← eatSym "..." then
      let _ ← sub .binding
    else
      let _ ← readBindingElement sub
    unless ← seesSym "]" do expectSym ","
    return true
  expectSym "]"
  eatAmbientQuestionMark

/-- Reads a property of a pattern. If it takes the rest of the properties, tells where it starts
and what binds them. -/
def readBindingProperty : Parse (Option (Nat × Binding)) := do
  let start ← position
  if ← eatSym "..." then return some (start, ← sub .binding)
  let key ← readKey sub
  if ← eatSym ":" then
    let _ ← readBindingElement sub
    return none
  match key.name with
  | .word _ =>
    if ← eatSym "=" then
      let _ ← readValue sub
    return none
  | _ => fault

/-- Reads a pattern in braces. If the last property takes the rest, it must bind it to a name. -/
def readObjectBinding : Parse Unit := within Modes.enclosed do
  advance
  let properties ← collect do
    if ← eatSym "\x7d" then return none
    let property ← readBindingProperty sub
    unless ← seesSym "\x7d" do expectSym ","
    return some property
  match properties.getLast? with
  | some (some (start, binding)) => unless binding == .name do faultAt start
  | _ => pure ()
  eatAmbientQuestionMark

/-- Reads a name or a pattern. -/
def readBinding (letForbidden : Bool) : Parse Binding := do
  match ← requireToken with
  | .word _ =>
    let _ ← readBoundName letForbidden
    return .name
  | .sym "[" =>
    readArrayBinding sub
    return .array
  | .sym "\x7b" =>
    readObjectBinding sub
    return .object
  | _ => fault

end Relocation.TypeScript.Grammar

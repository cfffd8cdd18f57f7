import Relocation.TypeScript.Grammar.Operands

/-!
# Classes

A member of a class starts with modifiers, each of which may turn out to be the member's name. The
closing brace may be missing at the end of the text.
-/

namespace Relocation.TypeScript.Grammar

variable (sub : Nested)

-- ---------------------------------------------------------------------------
-- Kinds of members
-- ---------------------------------------------------------------------------

/-- Whether a method goes on here behind its name. -/
def seesMethod : Parse Bool := do
  seesAnySym ["(", "<"] <||> sees .tagStart

/-- Whether a property goes on here behind its name. With `lenient` it may just end. -/
def seesProperty (lenient : Bool) : Parse Bool := do
  if ← seesAnySym ["!", ":", "=", "\x7d"] then return true
  if lenient then seesStatementEnd else seesSym ";"

/-- Whether a modifier that has been taken is the name of a property after all. -/
def seesNamedProperty (lenient : Bool) : Parse Bool := do
  seesProperty lenient <||> seesSym "?"

-- ---------------------------------------------------------------------------
-- Members
-- ---------------------------------------------------------------------------

/-- Reads the name of a member. -/
def readClassKey : Parse Key := do
  if ← seesSym "#" then
    let start ← position
    readPrivateName
    return ⟨start, .private_⟩
  else readKey sub

/-- Reads a method behind its name. -/
def readMethod (isAsync isGenerator : Bool) : Parse Unit := do
  let _ ← readFunctionRest sub isAsync isGenerator

/-- Reads a property behind its name. None is named like a constructor. -/
def readPropertyRest (key : Key) (optional : Bool) : Parse Unit := do
  if key.isConstructor then faultAt key.start
  unless optional do
    let _ ← eatSym "!"
  let _ ← readOptionalAnnotation sub
  if ← eatSym "=" then
    let _ ← within Modes.withIn (sub .assignment)
  let _ ← eatStatementEnd

/-- Reads the member that a modifier names, if it names one; tells whether it did. `start` is
where the modifier stands. -/
def readNamedByModifier? (start : Nat) (text : String) (lenient : Bool) : Parse Bool := do
  let key : Key := ⟨start, .word text⟩
  if ← seesMethod then
    readMethod sub false false
    return true
  if ← seesNamedProperty lenient then
    let optional ← eatSym "?"
    readPropertyRest sub key optional
    return true
  return false

/-- Reads a constructor behind its name. -/
def readConstructor : Parse Unit := do
  if ← seesSym "<" then
    if ← seesSymAhead ">" then
      advance
      advance
    else sub .typeParameters
  expectSym "("
  readConstructorParameters sub
  expectSym ")"
  let _ ← readOptionalAnnotation sub
  let _ ← within (inFunction false false) (readOptionalBody sub)

/-- Reads a member behind its name. -/
def readMemberRest (start : Nat) (key : Key) (readOnly optional : Bool) : Parse Unit := do
  if ← seesMethod then
    if readOnly then faultAt start
    if key.isConstructor then readConstructor sub else readMethod sub false false
    return ()
  let generatorFollows ← afterLineBreak <&&> seesSym "*"
  let access ← pure (key.name == .word "get" || key.name == .word "set")
    <&&> notM (seesProperty false) <&&> pure !generatorFollows
  if ← pure !access <&&> seesProperty true then return ← readPropertyRest sub key optional
  if ← pure (key.name == .word "async") <&&> notM afterLineBreak then
    let _ ← eatModifier? ["override"] false
    let isGenerator ← eatSym "*"
    let key ← readClassKey sub
    if key.isConstructor then faultAt key.start
    if readOnly then faultAt start
    unless optional do
      let _ ← eatSym "?"
    readMethod sub true isGenerator
  else if access then
    let _ ← readClassKey sub
    readMethod sub false false
  else fault

/-- Reads the modifiers before a member; tells whether it is read-only, and whether there was a
modifier that excludes an index signature. -/
def readMemberModifiers : Parse (Bool × Bool) := do
  let found ← collect (eatModifier? ["abstract", "readonly", "override", "static"] true)
  return (found.contains "readonly", found.contains "abstract" || found.contains "override")

/-- Reads a member behind its first modifiers. -/
def readMemberBody (start : Nat) (isStatic accessible : Bool) : Parse Unit := do
  let (readOnly, excluding) ← readMemberModifiers
  if ← pure isStatic <&&> seesSym "\x7b" then return ← sub .block
  if ← seesWord "static" <&&> seesSymAhead "\x7b" then
    advance
    return ← sub .block
  if !excluding && !accessible then
    if ← readIndexSignature? sub then return ()
  if ← eatSym "*" then
    let _ ← readClassKey sub
    return ← readMethod sub false true
  let key ←
    if ← pure readOnly <&&> seesAnySym ["!", ":"] then pure ⟨start, .word "readonly"⟩
    else readClassKey sub
  let optional ← eatSym "?"
  readMemberRest sub start key readOnly optional

/-- Reads a member of a class. -/
def readClassMember : Parse Unit := do
  let start ← position
  sub .decorators
  let declared ← eatWord "declare"
  let accessible ← eatAccessModifier
  let declared ← pure declared <||> eatWord "declare"
  if declared then
    if ← readNamedByModifier? sub start "declare" false then return ()
  let staticStart ← position
  let isStatic ← eatWord "static"
  if isStatic then
    if ← readNamedByModifier? sub staticStart "static" false then return ()
  let accessorStart ← position
  if ← eatWord "accessor" then
    if ← readNamedByModifier? sub accessorStart "accessor" true then return ()
  readMemberBody sub start isStatic accessible

-- ---------------------------------------------------------------------------
-- Classes
-- ---------------------------------------------------------------------------

/-- Reads the class that is extended. -/
def readSuperclass : Parse Unit := do
  let _ ← readLeftHand sub
  if ← seesSym "<" then sub .typeArguments

/-- Reads what a class builds on. Repetitions are passed over. -/
def readClassHeritage : Parse Unit := do
  if ← eatWord "extends" then
    readSuperclass sub
    if ← eatSym "," then readHeritage sub
  if ← eatWord "extends" then readSuperclass sub
  if ← eatWord "implements" then readHeritage sub
  if ← eatWord "implements" then readHeritage sub
  if ← eatWord "extends" then readSuperclass sub

/-- Reads a class from the word `class` on. -/
def readClass (named : Bool) : Parse Unit := do
  expectWord "class"
  if named then
    let _ ← readBoundName true
  else readOptionalName true
  readOptionalTypeParameters sub
  readClassHeritage sub
  expectSym "\x7b"
  whileYes do
    if ← atEnd <||> seesSym "\x7d" then return false
    unless ← eatSym ";" do readClassMember sub
    return true
  unless ← atEnd do expectSym "\x7d"

end Relocation.TypeScript.Grammar

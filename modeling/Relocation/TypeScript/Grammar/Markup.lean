import Relocation.TypeScript.Grammar.Structures

/-!
# Markup

Elements between tags. The names of an opening tag and of the closing one must agree. Where the
scanner took the bracket of a tag for a plain one, the names and the closing bracket are plain
tokens, too.
-/

namespace Relocation.TypeScript.Grammar

variable (sub : Nested)

/-- What the opening or the closing tag of an element says: a name, or nothing. -/
abbrev TagName := Option String

-- ---------------------------------------------------------------------------
-- Names
-- ---------------------------------------------------------------------------

/-- Reads one part of a name. -/
def readTagNamePart (plain : Bool) : Parse String := do
  match ← requireToken with
  | .markupName text =>
    advance
    return text
  | _ => if plain then readName true else fault

/-- Reads a name that may be in a name space. -/
def readAttributeName (plain : Bool) : Parse String := do
  let name ← readTagNamePart plain
  if ← eatSym ":" then return name ++ ":" ++ (← readTagNamePart plain) else return name

/-- Reads the name of an element. -/
def readTagName (plain : Bool) : Parse String := do
  let name ← readAttributeName plain
  let parts ← collect do
    if ← eatSym "." then return some ("." ++ (← readTagNamePart plain)) else return none
  return name ++ String.join parts

/-- Takes the bracket that closes a tag. -/
def eatTagEnd (plain : Bool) : Parse Bool := do
  if ← eat .tagEnd then return true
  else if plain then eatSym ">" else return false

-- ---------------------------------------------------------------------------
-- Tags
-- ---------------------------------------------------------------------------

/-- Reads an expression in braces, which may be missing. -/
def readEmbedded : Parse Unit := do
  advance
  unless ← seesSym "\x7d" do
    let _ ← readExpression sub
  expectSym "\x7d"

/-- Reads the value of an attribute. -/
def readAttributeValue : Parse Unit :=
  within (fun m => { m with inConditional := false, colonAhead := false }) do
    match ← requireToken with
    | .sym "\x7b" => readEmbedded sub
    | .str _ => advance
    | .tagStart =>
      let _ ← sub .element
    | _ => fault

/-- Reads an attribute. -/
def readAttribute (plain : Bool) : Parse Unit := do
  if ← eatSym "\x7b" then
    expectSym "..."
    let _ ← sub .assignment
    expectSym "\x7d"
  else
    let _ ← readAttributeName plain
    if ← eatSym "=" then readAttributeValue sub

/-- Reads an opening tag behind its bracket; tells its name and whether the element ends with
it. -/
def readOpeningTag (plain : Bool) : Parse (TagName × Bool) := do
  if ← eat .tagEnd then return (none, false)
  let name ← readTagName plain
  if ← seesSym "<" then
    let _ ← trialBool do
      sub .typeArguments
      return true
  whileYes do
    let closed ← seesSym "/" <||> sees .tagEnd <||> pure plain <&&> seesSym ">"
    if ← atEnd <||> pure closed then return false
    readAttribute sub plain
    return true
  let ends ← eatSym "/"
  unless ← eatTagEnd plain do fault
  return (some name, ends)

/-- Reads a closing tag behind its slash. -/
def readClosingTag (plain : Bool) : Parse TagName := do
  if ← eat .tagEnd then return none
  let name ← readTagName plain
  expect .tagEnd
  return some name

-- ---------------------------------------------------------------------------
-- Elements
-- ---------------------------------------------------------------------------

/-- Reads one thing between tags. If it is the closing tag, tells where it starts and its name. -/
def readChild (plain : Bool) : Parse (Option (Nat × TagName)) := do
  match ← requireToken with
  | .tagStart =>
    if ← seesSymAhead "/" then
      let start ← position
      advance
      advance
      return some (start, ← readClosingTag plain)
    else
      let _ ← sub .element
      return none
  | .markupText =>
    advance
    return none
  | .sym "\x7b" =>
    if ← seesSymAhead "..." then
      advance
      advance
      let _ ← readExpression sub
      expectSym "\x7d"
    else readEmbedded sub
    return none
  | _ => fault

/-- Reads things between tags up to the closing tag, at most `bound` of them. -/
def readChildrenWithin (plain : Bool) : (bound : Nat) → Parse (Nat × TagName)
  | 0 => fault
  | bound + 1 => do
    match ← readChild sub plain with
    | some closing => return closing
    | none => readChildrenWithin plain bound

/-- Reads an element from its opening bracket on. -/
def readElement : Parse Expression :=
  within (fun m => { m with anglesJoin := false }) do
    let start ← position
    let plain ← seesSym "<"
    advance
    let (opening, ends) ← readOpeningTag sub plain
    unless ends do
      let (closingStart, closing) ← readChildrenWithin sub plain (← get).limit
      unless closing = opening do faultAt closingStart
    return ⟨start, .other⟩

end Relocation.TypeScript.Grammar

import Relocation.TypeScript.Grammar.Reading

/-!
# Names

A word in the place of a name may be any word, or one that names a variable. The latter excludes
the keywords, apart from a few that are refused later or nowhere.
-/

namespace Relocation.TypeScript.Grammar

/-- Reads any word. In a type the name of a tag will do. -/
def readAnyName : Parse String := do
  match ← requireToken with
  | .word text =>
    advance
    return text
  | .markupName text =>
    if (← modes).inType then
      advance
      return text
    else fault
  | _ => fault

/-- Reads a word that names a variable. The words `yield` and `await` are names if the caller
says so, but `await` never is in a module. -/
def readName (yieldAllowed : Bool) : Parse String := do
  match ← requireToken with
  | .word text =>
    advance
    let m ← modes
    if text == "await" then
      if m.isAmbient then return text else faultBehind
    else if text == "this" || text == "let" then return text
    else if text == "yield" then
      if yieldAllowed then return text else faultBehind
    else if isKeyword text then faultBehind
    else return text
  | _ => fault

/-- Reads a name where a variable is bound. -/
def readBoundName (letForbidden : Bool) : Parse String := do
  if ← pure letForbidden <&&> seesWord "let" then fault
  readName true

/-- Reads a name that may be missing. -/
def readOptionalName (letForbidden : Bool) : Parse Unit := do
  if ← seesReference <||> seesWord "this" then
    let _ ← readBoundName letForbidden

/-- Reads a private name, whose hash stands close to the word. -/
def readPrivateName : Parse Unit := do
  let start ← position
  advance
  let hashStop := (← get).previousStop
  if (← position) ≠ hashStop then faultAt start
  let _ ← readAnyName

/-- Reads the name of a member, which may be private. -/
def readMemberName : Parse (Option String) := do
  if ← seesSym "#" then
    readPrivateName
    return none
  else return some (← readAnyName)

-- ---------------------------------------------------------------------------
-- Modifiers
-- ---------------------------------------------------------------------------

/-- Whether a token may follow a modifier. -/
def mayFollowModifier : Token → Bool
  | .sym symbol => ["[", "\x7b", "*", "...", "#"].contains symbol
  | .word _ | .str _ | .number | .bigInt => true
  | _ => false

/-- Takes one of the modifiers if it is in hand and is one: what it modifies must follow on the
same line. With `beforeBlock` a `static` before a brace is none. -/
def eatModifier? (modifiers : List String) (beforeBlock : Bool) : Parse (Option String) := do
  match ← token? with
  | some (.word text) =>
    if !modifiers.contains text then return none
    if ← pure (beforeBlock && text == "static") <&&> seesSymAhead "\x7b" then return none
    let taken ← trialBool (do
      advance
      match ← current? with
      | some lexeme => return !lexeme.afterLineBreak && mayFollowModifier lexeme.token
      | none => return false)
    return if taken then some text else none
  | _ => return none

/-- Takes a modifier of a parameter or of a property, where one can stand. -/
def eatParameterModifier : Parse Bool := do
  if ← seesAnyWord ["public", "protected", "private", "readonly"] then
    if ← seesSomeWordAhead <||> seesSymAhead "\x7b" <||> seesSymAhead "[" then
      let _ ← eatModifier? ["public", "protected", "private", "readonly"] false
      return true
  return false

/-- Takes a modifier of access. -/
def eatAccessModifier : Parse Bool := do
  match ← eatModifier? ["public", "protected", "private", "in", "out"] false with
  | some text => return !(["in", "out"].contains text)
  | none => return false

end Relocation.TypeScript.Grammar

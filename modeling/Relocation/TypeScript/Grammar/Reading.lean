import Relocation.TypeScript.Scanner

/-!
# Reading by the grammar

The grammar reads lexemes one at a time and sees at most one more ahead. A lexeme is scanned when
it is first looked at, in the mode of that moment. Reading ends with a value or with the offset of
a fatal fault. Faults that a reader can pass over leave no trace: they never decide what becomes
of a text.

A fault keeps the state in which it arose, because some readers go on from there.
-/

namespace Relocation.TypeScript.Grammar

-- ---------------------------------------------------------------------------
-- State
-- ---------------------------------------------------------------------------

/-- What the grammar knows of its surroundings. -/
structure Modes where
  /-- Inside a type. -/
  inType : Bool
  /-- Angle brackets may join although they stand in a type. -/
  anglesJoin : Bool
  /-- In the name of a property. -/
  inPropertyName : Bool
  /-- The word `in` is an operator here. -/
  inIsOperator : Bool
  /-- In an asynchronous function. -/
  isAsync : Bool
  /-- In a generator function. -/
  isGenerator : Bool
  /-- In a declaration without a body. -/
  isAmbient : Bool
  /-- In a branch of a conditional expression. -/
  inConditional : Bool
  /-- The colon of a conditional expression is still to come. -/
  colonAhead : Bool
  /-- A conditional type would be ambiguous here. -/
  noConditionalType : Bool
  /-- In the first part of a loop head. -/
  inLoopHead : Bool
  deriving Repr, DecidableEq, Inhabited

namespace Modes

/-- At the top level of a module. -/
def initial (dialect : Dialect) : Modes where
  inType := false
  anglesJoin := false
  inPropertyName := false
  inIsOperator := false
  isAsync := false
  isGenerator := false
  isAmbient := dialect.declarationsOnly
  inConditional := false
  colonAhead := false
  noConditionalType := false
  inLoopHead := false

/-- How tokens are scanned in these surroundings. -/
def manner (modes : Modes) : Manner :=
  ⟨modes.inType, modes.inType && !modes.anglesJoin, modes.inPropertyName⟩

/-- The same surroundings inside a type. -/
def type_ (modes : Modes) : Modes := { modes with inType := true }

/-- The same surroundings where the colon of no conditional expression is awaited. -/
def enclosed (modes : Modes) : Modes := { modes with colonAhead := false }

/-- The same surroundings with the word `in` as an operator. -/
def withIn (modes : Modes) : Modes := { modes with inIsOperator := true }

end Modes

/-- The state of the grammar on its way through a text. -/
structure State where
  text : List Char
  /-- A bound for the number of lexemes. -/
  limit : Nat
  scanner : Scanner
  /-- The lexeme in hand, if it has been scanned. -/
  current : Option Lexeme
  /-- The lexeme behind it, if it has been scanned. -/
  following : Option Lexeme
  /-- The lexeme that was read last. -/
  previousStart : Nat
  previousStop : Nat
  modes : Modes
  /-- Where an arrow function may start. -/
  arrowStart : Option Nat
  deriving Inhabited

namespace State

/-- At the start of a text. -/
def start (dialect : Dialect) (text : List Char) : State where
  text := text
  limit := 2 * text.length + 4
  scanner := .start dialect text
  current := none
  following := none
  previousStart := 0
  previousStop := 0
  modes := .initial dialect
  arrowStart := none

end State

/-- A reader that gives a value or the offset of a fatal fault. -/
abbrev Parse := EStateM Nat State

-- ---------------------------------------------------------------------------
-- Looking at lexemes
-- ---------------------------------------------------------------------------

/-- The lexeme in hand. There is none at the end of the text. -/
def current? : Parse (Option Lexeme) := do
  let s ← get
  match s.current, s.following with
  | some lexeme, _ => return some lexeme
  | none, some lexeme =>
    set { s with current := some lexeme, following := none }
    return some lexeme
  | none, none =>
    let (lexeme?, scanner) := s.scanner.next s.modes.manner
    set { s with scanner := scanner, current := lexeme? }
    return lexeme?

/-- The token in hand. -/
def token? : Parse (Option Token) := do
  return (← current?).map Lexeme.token

/-- The lexeme behind the one in hand. -/
def following? : Parse (Option Lexeme) := do
  match ← current? with
  | none => return none
  | some _ =>
    let s ← get
    match s.following with
    | some lexeme => return some lexeme
    | none =>
      let (lexeme?, scanner) := s.scanner.next s.modes.manner
      set { s with scanner := scanner, following := lexeme? }
      return lexeme?

/-- The token behind the one in hand. -/
def tokenAhead? : Parse (Option Token) := do
  return (← following?).map Lexeme.token

/-- Whether the text ends here. -/
def atEnd : Parse Bool := do
  return (← current?).isNone

/-- The offset of the lexeme in hand, or the end of the last one. -/
def position : Parse Nat := do
  match ← current? with
  | some lexeme => return lexeme.start
  | none => return (← get).previousStop

/-- Whether a line break stands before the lexeme in hand. -/
def afterLineBreak : Parse Bool := do
  return (← current?).any Lexeme.afterLineBreak

/-- Whether a line break stands behind the lexeme in hand, or the end of the text. -/
def beforeLineBreak : Parse Bool := do
  return (← following?).all Lexeme.afterLineBreak

-- ---------------------------------------------------------------------------
-- Faults
-- ---------------------------------------------------------------------------

/-- Goes on to the next lexeme. -/
def advance : Parse Unit := do
  match ← current? with
  | some lexeme =>
    modify fun s =>
      { s with current := none, previousStart := lexeme.start, previousStop := lexeme.stop }
  | none => return ()

/-- A fault at an offset. A malformed lexeme in hand is passed over. -/
def faultAt {α : Type} (offset : Nat) : Parse α := do
  match ← token? with
  | some (.malformed _) => advance
  | _ => pure ()
  throw offset

/-- A fault at the lexeme in hand, or at the last one if the text ends here. -/
def fault {α : Type} : Parse α := do
  match ← current? with
  | some lexeme => faultAt lexeme.start
  | none => throw (← get).previousStart

/-- A fault at the lexeme that was read last. -/
def faultBehind {α : Type} : Parse α := do
  faultAt (← get).previousStart

/-- The token in hand, which must be one. A malformed lexeme reports the place that is at fault
in it. -/
def requireToken : Parse Token := do
  match ← token? with
  | some (.malformed offset) =>
    advance
    throw offset
  | some token => return token
  | none => throw (← get).previousStop

-- ---------------------------------------------------------------------------
-- Accepting lexemes
-- ---------------------------------------------------------------------------

/-- Whether the token is in hand. -/
def sees (token : Token) : Parse Bool := do
  return (← token?) == some token

/-- Whether the symbol is in hand. -/
def seesSym (symbol : String) : Parse Bool := sees (.sym symbol)

/-- Whether the word is in hand. -/
def seesWord (word : String) : Parse Bool := sees (.word word)

/-- Whether one of the symbols is in hand. -/
def seesAnySym (symbols : List String) : Parse Bool := do
  match ← token? with
  | some (.sym symbol) => return symbols.contains symbol
  | _ => return false

/-- Whether one of the words is in hand. -/
def seesAnyWord (words : List String) : Parse Bool := do
  match ← token? with
  | some (.word word) => return words.contains word
  | _ => return false

/-- Whether some word is in hand. -/
def seesSomeWord : Parse Bool := do
  return (← token?).any Token.isWord

/-- Whether a word is in hand that may name a variable. -/
def seesReference : Parse Bool := do
  return (← token?).any Token.isReference

/-- Whether the token comes next but one. -/
def seesAhead (token : Token) : Parse Bool := do
  return (← tokenAhead?) == some token

/-- Whether the symbol comes next but one. -/
def seesSymAhead (symbol : String) : Parse Bool := seesAhead (.sym symbol)

/-- Whether the word comes next but one. -/
def seesWordAhead (word : String) : Parse Bool := seesAhead (.word word)

/-- Whether some word comes next but one. -/
def seesSomeWordAhead : Parse Bool := do
  return (← tokenAhead?).any Token.isWord

/-- Whether a word comes next but one that may name a variable. -/
def seesReferenceAhead : Parse Bool := do
  return (← tokenAhead?).any Token.isReference

/-- Takes the token if it is in hand. -/
def eat (token : Token) : Parse Bool := do
  if ← sees token then
    advance
    return true
  else return false

/-- Takes the symbol if it is in hand. -/
def eatSym (symbol : String) : Parse Bool := eat (.sym symbol)

/-- Takes the word if it is in hand. -/
def eatWord (word : String) : Parse Bool := eat (.word word)

/-- Takes the token, which must be in hand. -/
def expect (token : Token) : Parse Unit := do
  unless ← eat token do fault

/-- Takes the symbol, which must be in hand. -/
def expectSym (symbol : String) : Parse Unit := expect (.sym symbol)

/-- Takes the word, which must be in hand. -/
def expectWord (word : String) : Parse Unit := expect (.word word)

/-- Whether a statement may end here: at a semicolon, before a closing brace, at a line break or
at the end of the text. -/
def seesStatementEnd : Parse Bool := do
  match ← current? with
  | none => return true
  | some lexeme =>
    return lexeme.token == .sym ";" || lexeme.token == .sym "\x7d" || lexeme.afterLineBreak

/-- Takes the end of a statement if it may end here. -/
def eatStatementEnd : Parse Bool := do
  if ← eatSym ";" then return true else seesStatementEnd

/-- Takes the end of a statement, which must be possible here. -/
def expectStatementEnd : Parse Unit := do
  unless ← eatStatementEnd do fault

-- ---------------------------------------------------------------------------
-- Control
-- ---------------------------------------------------------------------------

/-- The present surroundings. -/
def modes : Parse Modes := do
  return (← get).modes

/-- Reads in changed surroundings, which end with the reading, also by a fault. -/
def within {α : Type} (change : Modes → Modes) (reader : Parse α) : Parse α := fun s =>
  match reader { s with modes := change s.modes } with
  | .ok a s' => .ok a { s' with modes := s.modes }
  | .error e s' => .error e { s' with modes := s.modes }

/-- Reads on trial: a fault or a refusal leaves everything as it was. -/
def trial {α : Type} (reader : Parse (Option α)) : Parse (Option α) := fun s =>
  match reader s with
  | .ok (some a) s' => .ok (some a) s'
  | .ok none _ => .ok none s
  | .error _ _ => .ok none s

/-- Reads on trial; only a positive answer takes effect. -/
def trialBool (reader : Parse Bool) : Parse Bool := do
  let answer ← trial (do
    if ← reader then return some () else return none)
  return answer.isSome

/-- Looks ahead with a reader: nothing is taken, and a fault counts as a negative answer. -/
def lookAhead (reader : Parse Bool) : Parse Bool := fun s =>
  match reader s with
  | .ok answer _ => .ok answer s
  | .error _ _ => .ok false s

/-- Reads and lets a fault decide what to do instead, in the state of the fault. -/
def orElse {α : Type} (reader : Parse α) (handler : Nat → Parse α) : Parse α := fun s =>
  match reader s with
  | .ok a s' => .ok a s'
  | .error e s' => handler e s'

/-- Repeats a reader while it answers yes, at most `bound` times. -/
def repeatWithin (reader : Parse Bool) : (bound : Nat) → Parse Unit
  | 0 => pure ()
  | bound + 1 => do
    if ← reader then repeatWithin reader bound

/-- Repeats a reader while it answers yes. A repetition that takes a lexeme each time is bounded
by their number. -/
def whileYes (reader : Parse Bool) : Parse Unit := do
  repeatWithin reader (← get).limit

/-- Collects the values of a reader while it gives some, at most `bound` of them. -/
def collectWithin {α : Type} (reader : Parse (Option α)) : (bound : Nat) → Parse (List α)
  | 0 => pure []
  | bound + 1 => do
    match ← reader with
    | some a => return a :: (← collectWithin reader bound)
    | none => return []

/-- Collects the values of a reader while it gives some. -/
def collect {α : Type} (reader : Parse (Option α)) : Parse (List α) := do
  collectWithin reader (← get).limit

-- ---------------------------------------------------------------------------
-- The scanner's view
-- ---------------------------------------------------------------------------

/-- Tells the scanner that no operand comes next. -/
def forbidOperand : Parse Unit :=
  modify fun s => { s with scanner := { s.scanner with
    surroundings := { s.scanner.surroundings with operandNext := false } } }

/-- Replaces what is open around the place. -/
def setOpen (opened : List Nesting) : Parse Unit :=
  modify fun s => { s with scanner := { s.scanner with
    surroundings := { s.scanner.surroundings with open_ := opened } } }

/-- Reads as if nothing but the file were open around the place. -/
def outsideNesting {α : Type} (reader : Parse α) : Parse α := fun s =>
  let saved := s.scanner.surroundings.open_
  let bare : Parse Unit := setOpen (saved.getLast?.toList)
  match (bare >>= fun _ => reader) s with
  | .ok a s' => (setOpen saved >>= fun _ => pure a) s'
  | .error e s' => (setOpen saved >>= fun _ => throw e) s'

/-- Forgets the tag that was opened last: its bracket turned out to be none. -/
def forgetTag : Parse Unit := do
  match (← get).scanner.surroundings.open_ with
  | .openingTag :: .markup :: outer => setOpen outer
  | _ => return ()

/-- Reads the slash in hand once more, as the start of a regular expression. -/
def rereadPattern : Parse Unit := do
  match ← current? with
  | some slash =>
    advance
    modify fun s =>
      let (lexeme, scanner) := s.scanner.rereadPattern s.text slash
      { s with scanner := scanner, current := some lexeme, following := none }
  | none => return ()

/-- Puts a token in hand that the text lacks. -/
def supply (token : Token) : Parse Unit :=
  modify fun s =>
    { s with current := some ⟨token, s.previousStart, s.previousStop, false⟩ }

/-- Takes the first half of a doubled angle bracket in hand. -/
def splitAngle : Parse Unit :=
  modify fun s =>
    match s.current with
    | some lexeme => { s with current := some ⟨.sym "<", lexeme.start + 1, lexeme.stop, false⟩ }
    | none => s

end Relocation.TypeScript.Grammar

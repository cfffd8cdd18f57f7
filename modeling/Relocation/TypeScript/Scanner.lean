import Relocation.TypeScript.Scanner.Nesting
import Relocation.TypeScript.Scanner.Readers

/-!
# The scanner

`Scanner.next` reads one lexeme: it skips the gap, reads a token that starts there, and follows
the surroundings. Text that is no token becomes a malformed one, and the scanner goes on behind
it. The grammar tells the scanner a few things that only it can know (`Manner`), and asks for a
regular expression where a slash starts an operand.

`lexemesOf` is the scanner by itself: the lexemes of a text without a grammar.
-/

namespace Relocation.TypeScript

open Text

/-- How the grammar wants the next token read. -/
structure Manner where
  /-- Inside a type there are no tags. -/
  inType : Bool
  /-- Angle brackets stand alone, even if two of them follow each other. -/
  anglesAlone : Bool
  /-- The name of a property follows, which is never part of a tag. -/
  inPropertyName : Bool
  deriving Repr, DecidableEq, Inhabited

/-- How tokens are read outside types and names. -/
def Manner.plain : Manner := ⟨false, false, false⟩

/-- A scanner on its way through a text. -/
structure Scanner where
  dialect : Dialect
  /-- What follows the last lexeme. -/
  rest : List Char
  /-- The offset of what follows. -/
  offset : Nat
  surroundings : Surroundings
  /-- Where the latest template was opened. -/
  templateStart : Nat
  /-- Whether only an interpreter line has been read so far. -/
  atStart : Bool
  deriving Repr, Inhabited

namespace Scanner

/-- At the start of a text. -/
def start (dialect : Dialect) (text : List Char) : Scanner where
  dialect := dialect
  rest := text
  offset := 0
  surroundings := .initial
  templateStart := 0
  atStart := true

-- ---------------------------------------------------------------------------
-- Tokens by their first character
-- ---------------------------------------------------------------------------

/-- Reads a string literal behind its opening quote. One that is not closed ends with its line. -/
def readString (quote : Char) (place : Place) (cs : List Char) : Token × Place :=
  let body := Body.read quote cs
  let behind := place.behind (quote :: body.raw) body.rest
  match body.ending with
  | .closed => (.str (String.ofList body.value), { behind with offset := behind.offset + 1 })
  | .unclosed => (.str (String.ofList body.value), behind)
  | .malformed fault => (.malformed (place.offset + 1 + fault), behind)

/-- Whether a number starts here. -/
def startsNumber : List Char → Bool
  | '.' :: c :: _ => c.isDigit
  | c :: _ => c.isDigit
  | [] => false

/-- Reads a token that starts here. `fuel` bounds the number of lines that are passed over. There
is none at the end of the text. -/
def readToken (anglesAlone : Bool) : (fuel : Nat) → Place → Option (Token × Place)
  | 0, _ => none
  | fuel + 1, place =>
    match place.rest with
    | [] => none
    | c :: cs =>
      if isPassedOver anglesAlone place then readToken anglesAlone fuel (passOver place)
      else if isFaultyLine place then some (.malformed place.offset, passOver place)
      else if isIdentifierStart c || c = '\\' then some (readWord place)
      else if startsNumber place.rest then some place.readNumber
      else if c = '\'' || c = '"' then some (readString c place cs)
      else
        match readSymbol? anglesAlone place with
        | some found => some found
        | none => some (.malformed place.offset, place.behind [c] cs)

-- ---------------------------------------------------------------------------
-- Tokens by their surroundings
-- ---------------------------------------------------------------------------

/-- Reads a token here, with a fuel that suffices. -/
def readHere (manner : Manner) (place : Place) : Option (Token × Place) :=
  readToken manner.anglesAlone (place.rest.length + 1) place

/-- Reads a token that starts with the opening bracket of a tag. -/
def readTagStart (manner : Manner) (place : Place) (cs : List Char) : Option (Token × Place) :=
  if place.afterLineBreak && startsWithAny place.rest ["<<<<<<< "] then
    readHere manner (passOver place)
  else some (.tagStart, place.behind ['<'] cs)

/-- Reads between tags: text, or what ends it. -/
def readMarkup (s : Scanner) (manner : Manner) (place : Place) : Option (Token × Place) :=
  match place.rest with
  | '<' :: cs =>
    if s.surroundings.operandNext then readTagStart manner place cs else readHere manner place
  | '{' :: _ => readHere manner place
  | _ =>
    let behind := skipMarkupText place
    match behind.rest with
    | [] => some (.malformed place.offset, behind)
    | _ => some (.markupText, behind)

/-- Reads a token where tags may stand. -/
def readAmongTags (s : Scanner) (manner : Manner) (place : Place) : Option (Token × Place) :=
  let innermost := s.surroundings.innermost?
  if innermost = some .markup then s.readMarkup manner place
  else
    let inTag := innermost = some .openingTag || innermost = some .closingTag
    match place.rest with
    | '<' :: cs =>
      if s.surroundings.operandNext && cs.head? != some '!' then readTagStart manner place cs
      else readHere manner place
    | c :: cs =>
      if inTag && isIdentifierStart c then some (readMarkupName place)
      else if inTag && c = '>' then some (.tagEnd, place.behind ['>'] cs)
      else if innermost = some .openingTag && (c = '\'' || c = '"') then
        some (readAttributeValue c place cs)
      else readHere manner place
    | [] => none

/-- Reads a token in a template, outside its holes. -/
def readInTemplate (s : Scanner) (place : Place) : Token × Place :=
  let afterText :=
    match s.surroundings.previous with
    | some (.templateText _) => true
    | _ => false
  match afterText, readTemplateMark? place with
  | true, some mark => mark
  | _, _ => readTemplateText s.templateStart (place.rest.length + 1) none place

/-- Reads a token behind the gap. -/
def readAt (s : Scanner) (manner : Manner) (place : Place) : Option (Token × Place) :=
  match place.rest with
  | [] => none
  | _ =>
    let tags := s.dialect.markup && !manner.inPropertyName && !manner.inType
    let innermost := s.surroundings.innermost?
    if innermost = some .template then some (s.readInTemplate place)
    else if tags then s.readAmongTags manner place
    else readHere manner place

-- ---------------------------------------------------------------------------
-- Steps
-- ---------------------------------------------------------------------------

/-- The scanner behind a token. -/
def behind (s : Scanner) (token : Token) (place : Place) (atStart : Bool) : Scanner where
  dialect := s.dialect
  rest := place.rest
  offset := place.offset
  surroundings := s.surroundings.step s.dialect token place.afterLineBreak
  templateStart :=
    if token = .sym "\x60" && s.surroundings.innermost? != some .template then place.offset - 1
    else s.templateStart
  atStart := atStart

/-- The place of the next token. The first one counts as standing on a line of its own. -/
def nextPlace (s : Scanner) : Place :=
  let here : Place := ⟨s.rest, s.offset, s.atStart⟩
  if s.surroundings.innermost?.any Nesting.keepsGaps then here else skipGap here

/-- Reads the next lexeme. There is none at the end of the text. -/
def next (s : Scanner) (manner : Manner) : Option Lexeme × Scanner :=
  match s.atStart, s.rest with
  | true, '#' :: '!' :: cs =>
    let (rest, offset) := skipLine cs (s.offset + 2)
    (some ⟨.interpreterLine, s.offset, offset, false⟩,
      s.behind .interpreterLine ⟨rest, offset, false⟩ true)
  | _, _ =>
    let place := s.nextPlace
    match s.readAt manner place with
    | none => (none, { s with rest := place.rest, offset := place.offset, atStart := false })
    | some (token, place') =>
      (some ⟨token, place.offset, place'.offset, place'.afterLineBreak⟩,
        s.behind token place' false)

/-- Reads a regular expression from a slash that has been read as a symbol. -/
def rereadPattern (s : Scanner) (text : List Char) (slash : Lexeme) : Lexeme × Scanner :=
  let opened := ((cutAt? text slash.start).map Prod.snd).getD []
  let start : Place := ⟨opened, slash.start, slash.afterLineBreak⟩
  let result : Token × Place :=
    match skipPattern false false (start.behind ['/'] (opened.drop 1)) with
    | (behind, false) => (.malformed slash.start, behind)
    | (behind, true) =>
      if behind.rest.head?.any isIdentifierStart then
        match readSpelling behind.rest.length ⟨[], false, none⟩ behind with
        | (⟨_, _, some fault⟩, behind) => (.malformed fault, behind)
        | (_, behind) => (.regex, behind)
      else (.regex, behind)
  (⟨result.1, slash.start, result.2.offset, slash.afterLineBreak⟩,
    s.behind result.1 result.2 false)

end Scanner

-- ---------------------------------------------------------------------------
-- The lexemes of a text
-- ---------------------------------------------------------------------------

/-- The lexemes from here on; `fuel` bounds their number. -/
def Scanner.lexemes : (fuel : Nat) → Scanner → List Lexeme
  | 0, _ => []
  | fuel + 1, s =>
    match s.next .plain with
    | (none, _) => []
    | (some lexeme, s') => lexeme :: Scanner.lexemes fuel s'

/-- The lexemes of a text, read without a grammar. A lexeme may be empty, but then the next one is
not. -/
def lexemesOf (dialect : Dialect) (text : List Char) : List Lexeme :=
  Scanner.lexemes (2 * text.length + 2) (Scanner.start dialect text)

end Relocation.TypeScript

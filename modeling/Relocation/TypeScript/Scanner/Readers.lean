import Relocation.Text.Identifier
import Relocation.TypeScript.Scanner.Gap
import Relocation.TypeScript.StringLiteral
import Relocation.TypeScript.Token

/-!
# Readers of tokens

One reader for each kind of token, which begins where the token starts.

* A word is an identifier or a keyword. Its characters may be spelled as Unicode escapes, except
  that a keyword must be spelled plainly. Any escape that names some character is taken, also where
  that character has no business in an identifier.
* Numbers are decimal, with a fraction and an exponent, or integers in base two, eight or sixteen.
  Low lines may separate the digits anywhere, and a number with a leading zero is octal if its
  digits allow it. The grammar never asks for the value. An identifier must not follow directly.
* A symbol is a punctuator or an operator; the longest one counts. In a type, angle brackets stand
  alone. Some runs of symbol characters mark a line as a comment or as the trace of a merge; such a
  line is passed over.
* Templates, markup, quoted attribute values and regular expressions hold text that is not made of
  tokens. Each of them ends in its own way.
-/

namespace Relocation.TypeScript

open Text

-- ---------------------------------------------------------------------------
-- Words
-- ---------------------------------------------------------------------------

/-- A word in the course of reading. -/
structure Spelling where
  /-- The characters read so far. -/
  text : List Char
  /-- Whether one of them was spelled as an escape. -/
  escaped : Bool
  /-- The offset of what broke the rules, which ends the reading. -/
  fault : Option Nat
  deriving Repr, DecidableEq

/-- Reads on in a word; `fuel` bounds the number of characters and escapes. -/
def readSpelling : (fuel : Nat) → Spelling → Place → Spelling × Place
  | 0, word, place => (word, place)
  | fuel + 1, word, place =>
    match place.rest with
    | [] => (word, place)
    | '\\' :: 'u' :: rest =>
      match Escape.unicode rest with
      | .decoded consumed value rest =>
        readSpelling fuel ⟨word.text ++ value, true, none⟩ (place.behind ('\\' :: consumed) rest)
      | .malformed consumed rest =>
        let behind := place.behind ('\\' :: consumed) rest
        (⟨word.text, true, some behind.offset⟩, behind)
    | '\\' :: rest => (⟨word.text, true, some place.offset⟩, place.behind ['\\'] rest)
    | c :: rest =>
      if isIdentifierPart c then
        readSpelling fuel ⟨word.text ++ [c], word.escaped, none⟩ (place.behind [c] rest)
      else (word, place)

/-- Reads a word. -/
def readWord (place : Place) : Token × Place :=
  let (word, behind) := readSpelling place.rest.length ⟨[], false, none⟩ place
  match word.fault with
  | some fault => (.malformed fault, behind)
  | none =>
    let text := String.ofList word.text
    if word.escaped && isKeyword text then (.malformed place.offset, behind)
    else (.word text, behind)

-- ---------------------------------------------------------------------------
-- Numbers
-- ---------------------------------------------------------------------------

/-- Skips digits and low lines; tells whether there was a digit. -/
def skipDigits (base : Nat) : List Char → Nat → Bool → Bool × List Char × Nat
  | c :: cs, offset, found =>
    if c = '_' then skipDigits base cs (offset + 1) found
    else if (digitValue? base c).isSome then skipDigits base cs (offset + 1) true
    else (found, c :: cs, offset)
  | [], offset, found => (found, [], offset)

namespace Place

/-- The same place, further on. -/
def moved (place : Place) (rest : List Char) (offset : Nat) : Place :=
  { place with rest := rest, offset := offset }

/-- A number that ends here. -/
def endNumber (place : Place) : Token × Place :=
  match place.rest with
  | c :: _ => if isIdentifierStart c then (.malformed place.offset, place) else (.number, place)
  | [] => (.number, place)

/-- Expects digits here, and tells what to do behind them. -/
def expectDigits (place : Place) (base : Nat) (next : Place → Token × Place) : Token × Place :=
  match skipDigits base place.rest place.offset false with
  | (true, rest, offset) => next (place.moved rest offset)
  | (false, rest, offset) => (.malformed place.offset, place.moved rest offset)

/-- Reads the exponent of a number, if there is one. -/
def readExponent (place : Place) : Token × Place :=
  let digits (rest : List Char) (offset : Nat) : Token × Place :=
    (place.moved rest offset).expectDigits 10 endNumber
  match place.rest with
  | 'e' :: cs | 'E' :: cs =>
    match cs with
    | [] => (.malformed (place.offset + 1), place.moved [] (place.offset + 1))
    | '+' :: cs | '-' :: cs => digits cs (place.offset + 2)
    | cs => digits cs (place.offset + 1)
  | _ => place.endNumber

/-- Reads the fraction and the exponent of a number. -/
def readFraction (place : Place) : Token × Place :=
  match place.rest with
  | '.' :: cs =>
    let (_, rest, offset) := skipDigits 10 cs (place.offset + 1) false
    (place.moved rest offset).readExponent
  | _ => place.readExponent

/-- Reads the digits behind the letter of a base. -/
def readInBase (place : Place) (base : Nat) (cs : List Char) : Token × Place :=
  (place.moved cs (place.offset + 2)).expectDigits base fun behind =>
    match behind.rest with
    | 'n' :: cs => (.bigInt, behind.moved cs (behind.offset + 1))
    | _ => behind.endNumber

/-- Reads a number that starts with a decimal digit. -/
def readDecimal (place : Place) : Token × Place :=
  let (_, rest, offset) := skipDigits 10 place.rest place.offset false
  let behind := place.moved rest offset
  let leadingZero := place.rest.head? == some '0' && place.offset + 1 < offset
  let digits := place.rest.take (offset - place.offset)
  if leadingZero && digits.all (fun c => c != '8' && c != '9') then behind.endNumber
  else
    match rest with
    | 'n' :: cs =>
      if leadingZero then behind.readFraction else (.bigInt, behind.moved cs (offset + 1))
    | _ => behind.readFraction

/-- Reads a number that starts here, with a digit or with a point. -/
def readNumber (place : Place) : Token × Place :=
  match place.rest with
  | '0' :: 'x' :: cs | '0' :: 'X' :: cs => place.readInBase 16 cs
  | '0' :: 'o' :: cs | '0' :: 'O' :: cs => place.readInBase 8 cs
  | '0' :: 'b' :: cs | '0' :: 'B' :: cs => place.readInBase 2 cs
  | '.' :: _ => place.readFraction
  | _ => place.readDecimal

end Place

-- ---------------------------------------------------------------------------
-- Symbols
-- ---------------------------------------------------------------------------

/-- The symbols, the longer before the shorter. -/
def symbols : List String :=
  [">>>=",
    "...", "===", "!==", "**=", "<<=", ">>=", ">>>", "&&=", "||=", "??=",
    "=>", "==", "!=", "<=", ">=", "&&", "||", "??", "++", "--", "+=", "-=", "*=", "/=", "%=",
    "&=", "|=", "^=", "<<", ">>", "**",
    "\x7b", "\x7d", "(", ")", "[", "]", ";", ",", "<", ">", "+", "-", "*", "/", "%", "&", "|",
    "^", "!", "~", "?", ":", "=", ".", "@", "#", "\x60"]

/-- Takes a symbol off the text, if it stands there. -/
def stripSymbol? (cs : List Char) (symbol : String) : Option (List Char) :=
  symbol.toList.isPrefixOf? cs

/-- Reads the longest symbol. -/
def readSymbol? (anglesAlone : Bool) (place : Place) : Option (Token × Place) :=
  let candidates :=
    match anglesAlone, place.rest with
    | true, '<' :: _ => ["<"]
    | true, '>' :: _ => [">"]
    | _, _ => symbols
  candidates.findSome? fun symbol =>
    (stripSymbol? place.rest symbol).map fun rest =>
      (.sym symbol, place.behind symbol.toList rest)

/-- Whether the text starts with one of the given runs. -/
def startsWithAny (cs : List Char) (runs : List String) : Bool :=
  runs.any fun run => (stripSymbol? cs run).isSome

/-- Whether the line from here on is passed over. -/
def isPassedOver (anglesAlone : Bool) (place : Place) : Bool :=
  (!anglesAlone && startsWithAny place.rest ["<!--"])
    || (place.afterLineBreak && startsWithAny place.rest ["-->", "======="])
    || (place.afterLineBreak && !anglesAlone
      && startsWithAny place.rest ["<<<<<<< ", ">>>>>>> "])

/-- Whether the line from here on is the one trace of a merge that is at fault. -/
def isFaultyLine (place : Place) : Bool :=
  place.afterLineBreak && startsWithAny place.rest ["||||||| "]

/-- The place of the next token behind a line that is passed over. -/
def passOver (place : Place) : Place :=
  let (rest, offset) := skipLine place.rest place.offset
  skipGap { place with rest := rest, offset := offset }

-- ---------------------------------------------------------------------------
-- Templates
-- ---------------------------------------------------------------------------

/-- Reads template text up to a hole or the closing mark. The offset of the last malformed escape
is kept. Template text that reaches the end of the file is malformed where the template was
opened. -/
def readTemplateText (opened : Nat) : (fuel : Nat) → (fault : Option Nat) → Place → Token × Place
  | 0, _, place => (.malformed opened, place)
  | fuel + 1, fault, place =>
    match place.rest with
    | [] => (.malformed opened, place)
    | '\x60' :: _ | '$' :: '{' :: _ => (.templateText fault, place)
    | '\\' :: rest =>
      match Escape.read true rest with
      | .decoded consumed _ rest =>
        readTemplateText opened fuel fault (place.behind ('\\' :: consumed) rest)
      | .malformed consumed rest =>
        readTemplateText opened fuel (some place.offset) (place.behind ('\\' :: consumed) rest)
    | c :: rest => readTemplateText opened fuel fault (place.behind [c] rest)

/-- Reads the mark that ends a stretch of template text. -/
def readTemplateMark? (place : Place) : Option (Token × Place) :=
  match place.rest with
  | '\x60' :: rest => some (.sym "\x60", place.behind ['\x60'] rest)
  | '$' :: '{' :: rest => some (.sym "$\x7b", place.behind ['$', '{'] rest)
  | _ => none

-- ---------------------------------------------------------------------------
-- Markup
-- ---------------------------------------------------------------------------

/-- Skips text between tags. -/
def skipMarkupText (place : Place) : Place :=
  let text := place.rest.takeWhile fun c => c != '<' && c != '{'
  place.behind text (place.rest.drop text.length)

/-- Reads the name of a tag or of an attribute, in which hyphens may stand. -/
def readMarkupName (place : Place) : Token × Place :=
  let name := place.rest.takeWhile fun c => isIdentifierPart c || c == '-'
  (.markupName (String.ofList name), place.behind name (place.rest.drop name.length))

/-- Reads the value of an attribute behind its opening quote. It may hold line breaks, and a
backslash means nothing in it. -/
def readAttributeValue (quote : Char) (start : Place) (cs : List Char) : Token × Place :=
  let value := cs.takeWhile (· != quote)
  let behind := start.behind (quote :: value) (cs.drop value.length)
  match behind.rest with
  | [] => (.malformed start.offset, behind)
  | _ :: rest => (.str (String.ofList value), behind.behind [quote] rest)

-- ---------------------------------------------------------------------------
-- Regular expressions
-- ---------------------------------------------------------------------------

/-- Skips the body of a regular expression, up to the slash that closes it. A slash in brackets or
behind a backslash does not. There is none if the line ends first. -/
def skipPattern : (escaped inBrackets : Bool) → Place → Place × Bool
  | escaped, inBrackets, ⟨c :: rest, offset, broke⟩ =>
    let behind : Place := ⟨rest, offset + c.utf8Size, broke⟩
    if isLineBreak c then (⟨c :: rest, offset, broke⟩, false)
    else if escaped then skipPattern false inBrackets behind
    else if c = '/' && !inBrackets then (behind, true)
    else
      let inBrackets := if c = '[' then true else if c = ']' then false else inBrackets
      skipPattern (c = '\\') inBrackets behind
  | _, _, ⟨[], offset, broke⟩ => (⟨[], offset, broke⟩, false)
termination_by _ _ place => place.rest.length

end Relocation.TypeScript

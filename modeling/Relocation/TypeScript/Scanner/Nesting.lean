import Relocation.TypeScript.Token

/-!
# Nesting

Some characters mean different things in different surroundings: a closing brace may go on with a
template, and an angle bracket may open a tag. The scanner therefore keeps the brackets that are
open, and whether an operand may come next. Both are followed from token to token, without the
help of the grammar.
-/

namespace Relocation.TypeScript

/-- Something that is open around a place in the text. -/
inductive Nesting where
  /-- A brace around statements. -/
  | statementBrace
  /-- A brace around an operand, such as an object. -/
  | operandBrace
  /-- A hole in a template or between tags. -/
  | hole
  /-- The parenthesis after the head word of a statement, of a loop with three parts or not. -/
  | statementParen (loop : Bool)
  | operandParen
  | template
  /-- A function that is an operand. -/
  | functionOperand
  /-- A class that is an operand. -/
  | classOperand
  | openingTag
  | closingTag
  /-- Between an opening tag and its closing one. -/
  | markup
  deriving Repr, DecidableEq, Inhabited

namespace Nesting

/-- Whether what is open is an operand once it is closed. -/
def isOperand : Nesting → Bool
  | operandBrace | hole | operandParen | template | functionOperand | classOperand | markup => true
  | statementBrace | statementParen _ | openingTag | closingTag => false

/-- Whether gaps are part of the text here. -/
def keepsGaps : Nesting → Bool
  | template | markup => true
  | _ => false

end Nesting

/-- What the scanner knows of the surroundings. -/
structure Surroundings where
  /-- What is open, the innermost first. -/
  open_ : List Nesting
  /-- The token before. -/
  previous : Option Token
  /-- Whether an operand may come next. -/
  operandNext : Bool
  deriving Repr, DecidableEq, Inhabited

namespace Surroundings

/-- At the start of a file. -/
def initial : Surroundings := ⟨[.statementBrace], none, true⟩

/-- The innermost thing that is open. -/
def innermost? (s : Surroundings) : Option Nesting := s.open_.head?

/-- Whether a brace that comes next would hold statements. -/
def opensStatements (s : Surroundings) (afterLineBreak : Bool) : Bool :=
  let byToken :=
    match s.previous with
    | some (.word "return") | some (.word "yield") => afterLineBreak
    | some (.word "else") | some (.sym ";") | some (.sym ")") | none => true
    | some (.sym "\x7b") =>
      match s.open_ with
      | .operandBrace :: .openingTag :: _ => true
      | .statementBrace :: _ => true
      | _ => false
    | some (.sym "<") | some (.sym ">") | some (.sym "=>") => true
    | _ => !s.operandNext
  if s.previous = some (.sym ":") then
    match s.innermost? with
    | some .statementBrace => true
    | some .operandBrace => false
    | _ => byToken
  else byToken

/-- What is open after a closing parenthesis or brace, and whether an operand may follow. -/
def close (s : Surroundings) : List Nesting × Bool :=
  match s.open_ with
  | [] | [_] => (s.open_, true)
  | .statementBrace :: .functionOperand :: outer | .statementBrace :: .classOperand :: outer =>
    (outer, false)
  | .hole :: outer => (outer, outer.head? != some .template)
  | inner :: outer => (outer, !inner.isOperand)

/-- What is open after a token, and whether an operand may follow. -/
def follow (dialect : Dialect) (s : Surroundings) (token : Token) (afterLineBreak : Bool) :
    List Nesting × Bool :=
  match token with
  | .sym ")" | .sym "\x7d" => s.close
  | .word "function" =>
    if s.operandNext && !s.opensStatements afterLineBreak then
      (.functionOperand :: s.open_, false)
    else (s.open_, false)
  | .word "class" =>
    if s.operandNext && !s.opensStatements afterLineBreak then (.classOperand :: s.open_, false)
    else (s.open_, false)
  | .sym ":" =>
    match s.open_ with
    | .functionOperand :: outer | .classOperand :: outer => (outer, true)
    | _ => (s.open_, true)
  | .word "of" =>
    match s.open_ with
    | .statementParen true :: _ => (s.open_, !(s.previous.any Token.precedesOperand))
    | _ => (s.open_, false)
  | .sym "\x7b" =>
    if dialect.markup && s.innermost? == some .openingTag then (.operandBrace :: s.open_, true)
    else if dialect.markup && s.innermost? == some .markup then (.hole :: s.open_, true)
    else if s.opensStatements afterLineBreak then (.statementBrace :: s.open_, true)
    else (.operandBrace :: s.open_, true)
  | .sym "/" =>
    if dialect.markup && s.previous == some .tagStart then
      (.closingTag :: s.open_.drop 2, false)
    else (s.open_, true)
  | .sym "$\x7b" => (.hole :: s.open_, true)
  | .sym "(" =>
    let inner : Nesting :=
      match s.previous with
      | some (.word "if") | some (.word "with") | some (.word "while") => .statementParen false
      | some (.word "for") => .statementParen true
      | _ => .operandParen
    (inner :: s.open_, true)
  | .sym "++" | .sym "--" => (s.open_, s.operandNext)
  | .sym "\x60" =>
    match s.open_ with
    | .template :: outer => (outer, false)
    | _ => (.template :: s.open_, false)
  | .tagStart => (.openingTag :: .markup :: s.open_, false)
  | .tagEnd =>
    match s.open_ with
    | .closingTag :: _ :: outer => (outer, outer.head? == some .markup)
    | .openingTag :: inner =>
      if s.previous == some (.sym "/") then
        (inner.drop 1, (inner.drop 1).head? == some .markup)
      else (inner, true)
    | _ :: outer => (outer, true)
    | [] => ([], true)
  | .word text =>
    if s.previous == some (.word "let") || s.previous == some (.word "const")
        || s.previous == some (.word "var") then
      (s.open_, if isKeyword text then token.precedesOperand else afterLineBreak)
    else (s.open_, token.precedesOperand)
  | _ => (s.open_, token.precedesOperand)

/-- The surroundings after a token. A keyword after a dot is a plain name. -/
def step (dialect : Dialect) (s : Surroundings) (token : Token) (afterLineBreak : Bool) :
    Surroundings :=
  let plainName := s.previous == some (.sym ".") &&
    match token with
    | .word text => isKeyword text
    | _ => false
  if plainName then { s with previous := some token, operandNext := false }
  else
    let (opened, operandNext) := s.follow dialect token afterLineBreak
    ⟨opened, some token, operandNext⟩

end Surroundings

end Relocation.TypeScript

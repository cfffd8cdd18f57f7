import Relocation.Text.Basic

/-!
# Gaps between tokens

Blank characters, line breaks and comments separate tokens. A gap is skipped as a whole; what is
remembered of it is whether it holds a line break. Four characters break a line here, although
lines are counted by line feeds alone.
-/

namespace Relocation.TypeScript

open Text

/-- A place in the text: what follows, the offset, and whether a line break was met on the way. -/
structure Place where
  rest : List Char
  offset : Nat
  afterLineBreak : Bool
  deriving Repr, DecidableEq, Inhabited

/-- The characters that break a line. -/
def isLineBreak (c : Char) : Bool :=
  c == '\n' || c == '\r' || c == '\u2028' || c == '\u2029'

/-- The characters that are skipped without breaking a line: the blank ones, and the zero
character. -/
def isInlineBlank (c : Char) : Bool :=
  let n := c.toNat
  n == 0 || n == 0x09 || n == 0x0b || n == 0x0c || n == 0x20 || n == 0xa0 || n == 0x1680
    || (0x2000 ≤ n && n ≤ 0x200a) || n == 0x202f || n == 0x205f || n == 0x3000 || n == 0xfeff

namespace Place

/-- The place behind the next character. -/
def advance (place : Place) (c : Char) (rest : List Char) : Place where
  rest := rest
  offset := place.offset + c.utf8Size
  afterLineBreak := place.afterLineBreak || isLineBreak c

/-- The place behind the characters of a token, which no longer count as a gap. -/
def behind (place : Place) (consumed rest : List Char) : Place where
  rest := rest
  offset := place.offset + byteLength consumed
  afterLineBreak := place.afterLineBreak

end Place

/-- Skips the rest of the line, up to the character that breaks it. -/
def skipLine : List Char → Nat → List Char × Nat
  | [], offset => ([], offset)
  | c :: cs, offset =>
    if isLineBreak c then (c :: cs, offset) else skipLine cs (offset + c.utf8Size)

/-- Skips a block comment, whose opening is behind. One that is not closed reaches to the end of
the text. -/
def skipBlock : List Char → Nat → Bool → Place
  | [], offset, broke => ⟨[], offset, broke⟩
  | '*' :: '/' :: cs, offset, broke => ⟨cs, offset + 2, broke⟩
  | c :: cs, offset, broke => skipBlock cs (offset + c.utf8Size) (broke || isLineBreak c)

/-- Skips blanks, line breaks and comments; `fuel` bounds the number of characters. -/
def skipGapWithin : (fuel : Nat) → Place → Place
  | 0, place => place
  | fuel + 1, place =>
    match place.rest with
    | '/' :: '/' :: cs =>
      let (rest, offset) := skipLine cs (place.offset + 2)
      skipGapWithin fuel ⟨rest, offset, place.afterLineBreak⟩
    | '/' :: '*' :: cs =>
      skipGapWithin fuel (skipBlock cs (place.offset + 2) place.afterLineBreak)
    | c :: cs =>
      if isLineBreak c || isInlineBlank c then skipGapWithin fuel (place.advance c cs) else place
    | [] => place

/-- Skips blanks, line breaks and comments. -/
def skipGap (place : Place) : Place := skipGapWithin place.rest.length place

end Relocation.TypeScript

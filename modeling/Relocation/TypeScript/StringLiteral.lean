import Relocation.Text.Basic

/-!
# String literals

How the inside of a quoted literal is read: up to the quote that closes it, or up to a line break
or the end of the text if none does. Escapes are decoded on the way. An escape that names a
surrogate has no character of its own and keeps its spelling; a line continuation stands for
nothing; an escape that breaks the rules makes the literal malformed.

## Results

* `Escape.text_read`, `Body.text_read`: nothing of the text is lost or invented by reading.
-/

namespace Relocation.TypeScript

open Text

-- ---------------------------------------------------------------------------
-- Digits
-- ---------------------------------------------------------------------------

/-- The value of a digit in a base of at most sixteen. -/
def digitValue? (base : Nat) (c : Char) : Option Nat :=
  let value :=
    if '0' ≤ c ∧ c ≤ '9' then some (c.toNat - '0'.toNat)
    else if 'a' ≤ c ∧ c ≤ 'f' then some (c.toNat - 'a'.toNat + 10)
    else if 'A' ≤ c ∧ c ≤ 'F' then some (c.toNat - 'A'.toNat + 10)
    else none
  value.filter (· < base)

/-- Splits off at most `limit` hexadecimal digits. -/
def spanHex : Nat → List Char → List Char × List Char
  | 0, cs => ([], cs)
  | _, [] => ([], [])
  | limit + 1, c :: cs =>
    if (digitValue? 16 c).isSome then
      let (digits, rest) := spanHex limit cs
      (c :: digits, rest)
    else ([], c :: cs)

/-- Nothing is lost when digits are split off. -/
theorem spanHex_append (limit : Nat) (cs : List Char) :
    (spanHex limit cs).1 ++ (spanHex limit cs).2 = cs := by
  fun_induction spanHex limit cs <;> simp_all

/-- The number that the digits spell in base sixteen. -/
def hexValue (digits : List Char) : Nat :=
  digits.foldl (fun n c => n * 16 + (digitValue? 16 c).getD 0) 0

/-- Whether the code point is a surrogate, which is no character. -/
def isSurrogate (n : Nat) : Bool := 0xd800 ≤ n && n ≤ 0xdfff

-- ---------------------------------------------------------------------------
-- Escapes
-- ---------------------------------------------------------------------------

/-- What stands after a backslash. -/
inductive Escape where
  /-- The escape reads `consumed` and stands for `value`. -/
  | decoded (consumed value rest : List Char)
  /-- The escape breaks the rules after `consumed`. -/
  | malformed (consumed rest : List Char)
  deriving Repr, DecidableEq

namespace Escape

/-- The text that an escape has been read from. -/
def text : Escape → List Char
  | decoded consumed _ rest => consumed ++ rest
  | malformed consumed rest => consumed ++ rest

/-- Splits off at most `limit` characters before a closing brace. -/
def spanToBrace : Nat → List Char → List Char × List Char
  | 0, cs => ([], cs)
  | _, [] => ([], [])
  | limit + 1, c :: cs =>
    if c = '}' then ([], c :: cs)
    else
      let (front, rest) := spanToBrace limit cs
      (c :: front, rest)

/-- Nothing is lost when characters before a brace are split off. -/
theorem spanToBrace_append (limit : Nat) (cs : List Char) :
    (spanToBrace limit cs).1 ++ (spanToBrace limit cs).2 = cs := by
  fun_induction spanToBrace limit cs <;> simp_all

/-- Expects the closing brace of an escape. -/
def closeBrace (consumed value : List Char) : List Char → Escape
  | '}' :: rest => decoded (consumed ++ ['}']) value rest
  | rest => malformed consumed rest

theorem text_closeBrace (consumed value rest : List Char) :
    (closeBrace consumed value rest).text = consumed ++ rest := by
  unfold closeBrace
  split <;> simp [text]

/-- Reads a code point in braces, after `u` and the opening brace. A surrogate keeps its
spelling, of which six characters are read at most. -/
def braced (cs : List Char) : Escape :=
  let (digits, rest) := spanHex cs.length cs
  let opened := ['u', '{']
  if digits = [] ∨ hexValue digits > 0x10ffff then malformed (opened ++ digits) rest
  else if isSurrogate (hexValue digits) then
    let (spelled, rest) := spanToBrace 6 cs
    closeBrace (opened ++ spelled) ('\\' :: opened ++ spelled ++ ['}']) rest
  else closeBrace (opened ++ digits) [Char.ofNat (hexValue digits)] rest

theorem text_braced (cs : List Char) : (braced cs).text = 'u' :: '{' :: cs := by
  have hdigits := spanHex_append cs.length cs
  have hspelled := spanToBrace_append 6 cs
  grind [braced, text, text_closeBrace]

/-- Reads a code unit of four digits, after `u`. A surrogate keeps its spelling. -/
def fourDigits (cs : List Char) : Escape :=
  let (digits, rest) := spanHex 4 cs
  let consumed := 'u' :: digits
  if digits.length < 4 then malformed consumed rest
  else if isSurrogate (hexValue digits) then decoded consumed ('\\' :: consumed) rest
  else decoded consumed [Char.ofNat (hexValue digits)] rest

theorem text_fourDigits (cs : List Char) : (fourDigits cs).text = 'u' :: cs := by
  have hdigits := spanHex_append 4 cs
  grind [fourDigits, text]

/-- Reads a Unicode escape, after `u`. -/
def unicode : List Char → Escape
  | '{' :: cs => braced cs
  | cs => fourDigits cs

theorem text_unicode (cs : List Char) : (unicode cs).text = 'u' :: cs := by
  unfold unicode
  split
  · exact text_braced _
  · exact text_fourDigits _

/-- Reads a character by two hexadecimal digits, after `x`. -/
def twoDigits (cs : List Char) : Escape :=
  let (digits, rest) := spanHex 2 cs
  if digits.length < 2 then malformed ('x' :: digits) rest
  else decoded ('x' :: digits) [Char.ofNat (hexValue digits)] rest

theorem text_twoDigits (cs : List Char) : (twoDigits cs).text = 'x' :: cs := by
  have hdigits := spanHex_append 2 cs
  grind [twoDigits, text]

/-- Reads further octal digits after those that make `value`, as long as the character stays
below 256. -/
def octal : (limit : Nat) → (consumed : List Char) → (value : Nat) → List Char → Escape
  | limit + 1, consumed, value, c :: cs =>
    match digitValue? 8 c with
    | some digit =>
      if value * 8 + digit < 256 then octal limit (consumed ++ [c]) (value * 8 + digit) cs
      else decoded consumed [Char.ofNat value] (c :: cs)
    | none => decoded consumed [Char.ofNat value] (c :: cs)
  | _, consumed, value, cs => decoded consumed [Char.ofNat value] cs

theorem text_octal (limit : Nat) (consumed : List Char) (value : Nat) (cs : List Char) :
    (octal limit consumed value cs).text = consumed ++ cs := by
  fun_induction octal limit consumed value cs <;> simp_all [text]

/-- The characters that single letters stand for. -/
def letterValue : Char → Char
  | 'n' => '\n'
  | 'r' => '\r'
  | 't' => '\t'
  | 'b' => '\x08'
  | 'v' => '\x0b'
  | 'f' => '\x0c'
  | c => c

/-- Reads what stands after a backslash. Template text has no octal escapes. -/
def read (inTemplate : Bool) : List Char → Escape
  | [] => malformed [] []
  | '\r' :: '\n' :: rest => decoded ['\r', '\n'] [] rest
  | 'x' :: rest => twoDigits rest
  | 'u' :: rest => unicode rest
  | c :: rest =>
    if c = '\r' ∨ c = '\n' ∨ c = '\u2028' ∨ c = '\u2029' then decoded [c] [] rest
    else
      match digitValue? 8 c with
      | some digit =>
        if c = '0' ∧ (rest.head?.bind (digitValue? 8)).isNone then decoded [c] ['\x00'] rest
        else if inTemplate then malformed [c] rest
        else octal 2 [c] digit rest
      | none => decoded [c] [letterValue c] rest

/-- What an escape has read and what it has left make up the text. -/
theorem text_read (inTemplate : Bool) (cs : List Char) : (read inTemplate cs).text = cs := by
  unfold read
  split
  · rfl
  · rfl
  · exact text_twoDigits _
  · exact text_unicode _
  · split
    · rfl
    · split
      · split
        · rfl
        · split
          · rfl
          · exact text_octal _ _ _ _
      · rfl

end Escape

-- ---------------------------------------------------------------------------
-- The inside of a literal
-- ---------------------------------------------------------------------------

/-- How the inside of a literal ends. -/
inductive Ending where
  /-- With the closing quote, which is not part of `rest`. -/
  | closed
  /-- Before a line break or at the end of the text. -/
  | unclosed
  /-- With a malformed escape, whose backslash lies `fault` bytes into the inside. -/
  | malformed (fault : Nat)
  deriving Repr, DecidableEq

/-- The inside of a literal. -/
structure Body where
  /-- The characters as written. -/
  raw : List Char
  /-- The characters that they stand for. -/
  value : List Char
  ending : Ending
  /-- The text that follows. -/
  rest : List Char
  deriving Repr, DecidableEq

namespace Body

/-- The body with further text in front of it. -/
def prepend (raw value : List Char) (body : Body) : Body where
  raw := raw ++ body.raw
  value := value ++ body.value
  ending :=
    match body.ending with
    | .malformed fault => .malformed (byteLength raw + fault)
    | ending => ending
  rest := body.rest

/-- Reads on after an escape. -/
def afterEscape (next : List Char → Body) : Escape → Body
  | .decoded consumed value rest => (next rest).prepend ('\\' :: consumed) value
  | .malformed consumed rest => ⟨'\\' :: consumed, [], .malformed 0, rest⟩

/-- Reads the inside of a literal; `fuel` bounds the number of characters and escapes. -/
def readWithin (quote : Char) : (fuel : Nat) → List Char → Body
  | 0, cs => ⟨[], [], .unclosed, cs⟩
  | _ + 1, [] => ⟨[], [], .unclosed, []⟩
  | fuel + 1, c :: cs =>
    if c = quote then ⟨[], [], .closed, cs⟩
    else if c = '\n' ∨ c = '\r' then ⟨[], [], .unclosed, c :: cs⟩
    else if c = '\\' then afterEscape (readWithin quote fuel) (Escape.read false cs)
    else (readWithin quote fuel cs).prepend [c] [c]

/-- Reads the inside of a literal that the given quote opened. -/
def read (quote : Char) (cs : List Char) : Body := readWithin quote cs.length cs

/-- The text that a body has been read from: its inside, the closing quote if there is one, and
what follows. -/
def text (quote : Char) (body : Body) : List Char :=
  body.raw ++ (if body.ending = .closed then [quote] else []) ++ body.rest

theorem text_prepend (quote : Char) (raw value : List Char) (body : Body) :
    (body.prepend raw value).text quote = raw ++ body.text quote := by
  cases h : body.ending <;> simp [text, prepend, h]

theorem text_readWithin (quote : Char) (fuel : Nat) (cs : List Char) :
    (readWithin quote fuel cs).text quote = cs := by
  induction fuel generalizing cs with
  | zero => simp [readWithin, text]
  | succ fuel ih =>
    cases cs with
    | nil => simp [readWithin, text]
    | cons c cs =>
      unfold readWithin
      split
      · simp_all [text]
      · split
        · simp [text]
        · split
          · have hescape := Escape.text_read false cs
            cases h : Escape.read false cs <;>
              simp_all [afterEscape, text_prepend, Escape.text]
            simp [text, hescape]
          · simp [text_prepend, ih]

/-- What is read is the inside as written, the closing quote if there is one, and what follows. -/
theorem text_read (quote : Char) (cs : List Char) : (read quote cs).text quote = cs :=
  text_readWithin quote cs.length cs

end Body

end Relocation.TypeScript

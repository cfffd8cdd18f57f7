import Relocation.Relocated

/-!
# Reports

What has been done to a file is told by a report, and what a run has done by a summary, which counts
the files and those that changed. A report can be written as one line: an object with its fields in
a fixed order and no blanks between them. Texts stand in it between double quotes: quotes and
backslashes get a backslash, the control characters below the space are written as escapes, and all
else stands as it is.
-/

namespace Relocation

/-- What has been done to a file. -/
structure Report where
  path : String
  /-- Whether the new text differs from the old one. Blanks around it do not count. -/
  changed : Bool
  written : Bool
  moves : List Move
  deriving Repr, DecidableEq, Inhabited

/-- How many files there were, and how many of them changed. -/
structure Summary where
  files : Nat
  changed : Nat
  deriving Repr, DecidableEq, Inhabited

namespace Summary

/-- No file has been counted. -/
def start : Summary := ⟨0, 0⟩

/-- Counts one more file. -/
def count (summary : Summary) (report : Report) : Summary where
  files := summary.files + 1
  changed := if report.changed then summary.changed + 1 else summary.changed

/-- The summary of reports. -/
def ofReports (reports : List Report) : Summary where
  files := reports.length
  changed := reports.countP Report.changed

end Summary

-- ---------------------------------------------------------------------------
-- Quoted text
-- ---------------------------------------------------------------------------


namespace Text

/-- A hexadecimal digit, in lower case. -/
def hexDigit (n : Nat) : Char :=
  if n < 10 then Char.ofNat ('0'.toNat + n) else Char.ofNat ('a'.toNat + (n - 10))

/-- What a character is written as. -/
def quotedChar (c : Char) : List Char :=
  if c = '"' then ['\\', '"']
  else if c = '\\' then ['\\', '\\']
  else if c = '\x08' then ['\\', 'b']
  else if c = '\x0c' then ['\\', 'f']
  else if c = '\n' then ['\\', 'n']
  else if c = '\r' then ['\\', 'r']
  else if c = '\t' then ['\\', 't']
  else if c.toNat < 0x20 then
    ['\\', 'u', '0', '0', hexDigit (c.toNat / 16), hexDigit (c.toNat % 16)]
  else [c]

/-- What a text is written as between its quotes. -/
def quotedChars (cs : List Char) : List Char := cs.flatMap quotedChar

/-- The text in quotes. -/
def quoted (text : String) : String :=
  String.ofList ('"' :: quotedChars text.toList ++ ['"'])

end Text

-- ---------------------------------------------------------------------------
-- Reports as text
-- ---------------------------------------------------------------------------

open Text

/-- What a form of import is called. -/
def ImportShape.label : ImportShape → String
  | sideEffect => "side-effect"
  | from_ => "from"
  | importEquals => "import-equals"
  | destructuringRequire => "destructuring-require"
  | require => "require"

/-- A truth value as it is written. -/
def flagText (flag : Bool) : String := if flag then "true" else "false"

/-- Fields with their values, written as an object. -/
def objectText (fields : List (String × String)) : String :=
  let written := fields.map fun (name, value) => quoted name ++ ":" ++ value
  "\x7b" ++ ",".intercalate written ++ "\x7d"

/-- A move, written as an object. -/
def Move.asObject (move : Move) : String :=
  objectText [
    ("shape", quoted move.shape.label), ("line", toString move.line),
    ("from", quoted move.source), ("to", quoted move.target)]

/-- A report, written as an object. -/
def Report.asObject (report : Report) : String :=
  objectText [
    ("path", quoted report.path), ("changed", flagText report.changed),
    ("written", flagText report.written),
    ("rewrites", "[" ++ ",".intercalate (report.moves.map Move.asObject) ++ "]")]

end Relocation

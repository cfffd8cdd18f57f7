import Relocation.Text.Basic

/-!
# Splicing new text between quotes

A replacement names a quoted literal by the byte range that covers it, quotes included, and gives
the text that shall stand between the quotes. `splice` works through the replacements from the
last to the first. What lies before the replacement in hand is still the source text, so no
offset ever has to be corrected. A replacement is passed over if it does not hold two quotes, if
it reaches into one already made or past the end of the text, or if its inside would cut a
character in two.
-/

namespace Relocation

open Text

/-- A quoted literal, given by its byte range with the quotes, and the new text of its inside. -/
structure Replacement where
  start : Nat
  stop : Nat
  updated : String
  deriving Repr, DecidableEq, Inhabited

namespace Replacement

/-- Replacements are worked through from the greatest start to the smallest; those with the same
start keep their order. -/
def latestFirst (replacements : List Replacement) : List Replacement :=
  replacements.mergeSort fun l r => r.start ≤ l.start

end Replacement

/-- A text that is being edited from its end. -/
structure Editing where
  /-- The part of the source that is still as it was. -/
  ahead : List Char
  /-- No replacement may reach beyond this offset. -/
  floor : Nat
  /-- The finished text behind that part. -/
  done : List Char
  deriving Repr, DecidableEq

namespace Editing

/-- The text before any replacement. -/
def start (source : List Char) : Editing := ⟨source, byteLength source, []⟩

/-- Makes one replacement, or passes over it. -/
def apply (text : Editing) (replacement : Replacement) : Editing :=
  if text.floor < replacement.stop ∨ replacement.stop < replacement.start + 2 then text
  else
    match cutAt? text.ahead (replacement.stop - 1) with
    | none => text
    | some (front, back) =>
      match cutAt? front (replacement.start + 1) with
      | none => text
      | some (kept, _) =>
        ⟨kept, replacement.start, replacement.updated.toList ++ back ++ text.done⟩

/-- The text as it stands. -/
def chars (text : Editing) : List Char := text.ahead ++ text.done

end Editing

/-- Makes the replacements in the source text. -/
def splice (source : String) (replacements : List Replacement) : String :=
  let edited := (Replacement.latestFirst replacements).foldl Editing.apply
    (Editing.start source.toList)
  String.ofList edited.chars

end Relocation

import Relocation.Glob.Braces
import Relocation.Text.Basic

/-!
# Globs

A pattern is a text with wildcards, read into tokens. A question mark stands for one character, a
star for any number of them, and a class in brackets for one character of a set or outside it.
None of these stands for a slash, and none for a dot at the start of a segment: such a dot must be
written. Two stars that make up a whole segment stand for any number of segments.

A glob is a pattern with alternatives in braces. It matches what one of the patterns matches that
it stands for. It has no meaning if one of them has a fault.

## Results

* `matchesFrom_literals`: a pattern without wildcards matches its own text and no other.
-/

namespace Relocation

open Text

namespace Glob

-- ---------------------------------------------------------------------------
-- Tokens
-- ---------------------------------------------------------------------------

/-- The characters from one to another, both included. -/
structure Range where
  low : Char
  high : Char
  deriving Repr, DecidableEq, Inhabited

/-- Whether the character lies in the range. -/
def Range.contains (range : Range) (c : Char) : Bool :=
  decide (range.low.toNat ≤ c.toNat) && decide (c.toNat ≤ range.high.toNat)

/-- A piece of a pattern. -/
inductive Token where
  /-- A character that stands for itself. -/
  | literal (c : Char)
  /-- One character. -/
  | anyChar
  /-- One character that the class holds, or with `negated` one that it does not hold. -/
  | class_ (negated : Bool) (members : List Range)
  /-- Characters of one segment. -/
  | anyText
  /-- Whole segments with their slashes. -/
  | anySegments
  deriving Repr, DecidableEq, Inhabited

-- ---------------------------------------------------------------------------
-- Reading
-- ---------------------------------------------------------------------------

/-- What can be wrong with a pattern. -/
inductive Defect where
  | tooManyStars
  | starsInSegment
  | badClass
  deriving Repr, DecidableEq, Inhabited

/-- What a defect is called. -/
def Defect.message : Defect → String
  | tooManyStars => "wildcards are either regular \x60*\x60 or recursive \x60**\x60"
  | starsInSegment => "recursive wildcards must form a single path component"
  | badClass => "invalid range pattern"

/-- A defect and the number of characters in front of it. -/
structure PatternFault where
  position : Nat
  defect : Defect
  deriving Repr, DecidableEq, Inhabited

/-- The text of a fault. -/
def PatternFault.message (fault : PatternFault) : String :=
  s!"Pattern syntax error near position {fault.position}: {fault.defect.message}"

/-- The members of a class: single characters, and ranges around a hyphen. -/
def ranges : List Char → List Range
  | low :: '-' :: high :: rest => ⟨low, high⟩ :: ranges rest
  | c :: rest => ⟨c, c⟩ :: ranges rest
  | [] => []

/-- Reads a class behind its opening bracket, and what follows it. A closing bracket that comes
first is a member. -/
def readClass? : List Char → Option (Token × List Char)
  | '!' :: first :: rest =>
    (splitAtFirst? [']'] rest).map fun (others, after) =>
      (.class_ true (ranges (first :: others)), after)
  | '!' :: [] => none
  | first :: rest =>
    (splitAtFirst? [']'] rest).map fun (others, after) =>
      (.class_ false (ranges (first :: others)), after)
  | [] => none

/-- What follows a class is shorter than the text from the class on. -/
theorem length_lt_of_readClass? {cs rest : List Char} {token : Token}
    (h : readClass? cs = some (token, rest)) : rest.length < cs.length := by
  rw [readClass?.eq_def] at h
  split at h
  · obtain ⟨⟨others, after⟩, hsplit, heq⟩ := Option.map_eq_some_iff.1 h
    obtain ⟨rfl, rfl⟩ := Prod.mk.inj heq
    have := congrArg List.length (eq_append_of_splitAtFirst? hsplit)
    simp only [List.length_append, List.length_cons] at *
    omega
  · simp at h
  · obtain ⟨⟨others, after⟩, hsplit, heq⟩ := Option.map_eq_some_iff.1 h
    obtain ⟨rfl, rfl⟩ := Prod.mk.inj heq
    have := congrArg List.length (eq_append_of_splitAtFirst? hsplit)
    simp only [List.length_append, List.length_cons] at *
    omega
  · simp at h

/-- Reads the tokens of a pattern from here on. `position` characters are behind, and `fresh`
tells whether a segment starts here. -/
def readTokens (position : Nat) (fresh : Bool) (cs : List Char) :
    Except PatternFault (List Token) :=
  match cs with
  | [] => .ok []
  | '?' :: rest => (.anyChar :: ·) <$> readTokens (position + 1) false rest
  | '*' :: '*' :: '*' :: _ => .error ⟨position + 2, .tooManyStars⟩
  | '*' :: '*' :: rest =>
    if !fresh then .error ⟨position - 1, .starsInSegment⟩
    else
      match rest with
      | [] => .ok [.anySegments]
      | '/' :: rest => (.anySegments :: ·) <$> readTokens (position + 3) true rest
      | _ => .error ⟨position + 2, .starsInSegment⟩
  | '*' :: rest => (.anyText :: ·) <$> readTokens (position + 1) false rest
  | '[' :: rest =>
    match _hclass : readClass? rest with
    | some (token, after) =>
      (token :: ·) <$> readTokens (position + 1 + (rest.length - after.length)) false after
    | none => .error ⟨position, .badClass⟩
  | c :: rest => (.literal c :: ·) <$> readTokens (position + 1) (c == '/') rest
termination_by cs.length
decreasing_by
  all_goals simp only [List.length_cons]
  all_goals try omega
  have := length_lt_of_readClass? _hclass
  omega

/-- The tokens of a pattern. -/
def tokensOf (pattern : List Char) : Except PatternFault (List Token) :=
  readTokens 0 true pattern

-- ---------------------------------------------------------------------------
-- Matching
-- ---------------------------------------------------------------------------

/-- Whether a wildcard may stand for the character: not for a slash, and not for a dot at the
start of a segment. -/
def isWild (fresh : Bool) (c : Char) : Bool := c != '/' && !(fresh && c == '.')

/-- Whether the tokens match the whole text. `fresh` tells whether a segment starts here. Whole
segments end where a segment starts anew, or with the text. -/
def matchesFrom : (fresh : Bool) → List Token → List Char → Bool
  | _, [], text => text.isEmpty
  | fresh, .anyText :: tokens, [] => matchesFrom fresh tokens []
  | fresh, .anyText :: tokens, c :: cs =>
    matchesFrom fresh tokens (c :: cs)
      || isWild fresh c && matchesFrom false (.anyText :: tokens) cs
  | fresh, .anySegments :: tokens, [] => matchesFrom fresh tokens []
  | fresh, .anySegments :: tokens, c :: cs =>
    fresh && matchesFrom true tokens (c :: cs)
      || !(fresh && c == '.') && matchesFrom (c == '/') (.anySegments :: tokens) cs
  | _, .literal _ :: _, [] => false
  | _, .anyChar :: _, [] => false
  | _, .class_ _ _ :: _, [] => false
  | _, .literal l :: tokens, c :: cs => l == c && matchesFrom (c == '/') tokens cs
  | fresh, .anyChar :: tokens, c :: cs => isWild fresh c && matchesFrom (c == '/') tokens cs
  | fresh, .class_ negated members :: tokens, c :: cs =>
    isWild fresh c && (members.any (·.contains c) != negated) && matchesFrom (c == '/') tokens cs
termination_by _ tokens text => (tokens.length, text.length)

/-- Whether the tokens match the text. -/
def matchesText (tokens : List Token) (text : List Char) : Bool := matchesFrom true tokens text

/-- A pattern without wildcards matches its own text and no other. -/
theorem matchesFrom_literals {fresh : Bool} {cs text : List Char} :
    matchesFrom fresh (cs.map .literal) text = true ↔ text = cs := by
  induction cs generalizing fresh text with
  | nil => rw [List.map_nil, matchesFrom, List.isEmpty_iff]
  | cons c cs ih =>
    match text with
    | [] => simp [matchesFrom]
    | d :: ds =>
      rw [List.map_cons, matchesFrom, Bool.and_eq_true, ih, beq_iff_eq, List.cons.injEq,
        eq_comm (a := c)]

end Glob

-- ---------------------------------------------------------------------------
-- Globs
-- ---------------------------------------------------------------------------

/-- A glob as the tokens of its patterns. -/
structure Glob where
  patterns : List (List Glob.Token)
  deriving Repr, DecidableEq, Inhabited

namespace Glob

/-- The characters that make a text a glob rather than a plain path. -/
def isMagic (c : Char) : Bool := c == '*' || c == '?' || c == '[' || c == '\x7b'

/-- Whether the text is a glob rather than a plain path. -/
def hasMagic (text : List Char) : Bool := text.any isMagic

/-- Reads a glob. The first fault counts. -/
def ofText (text : List Char) : Except PatternFault Glob :=
  Glob.mk <$> (alternatives text).mapM tokensOf

/-- Whether the glob matches the whole text. -/
def isMatch (glob : Glob) (text : List Char) : Bool :=
  glob.patterns.any fun tokens => matchesText tokens text

end Glob

end Relocation

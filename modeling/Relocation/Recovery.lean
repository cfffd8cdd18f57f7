import Relocation.Text.Blank

/-!
# Recovery from faults

A text that cannot be parsed is not given up. The place of the fault is blanked, so that all
offsets stay as they are, and the text is parsed again. If the fault lies in the binding clause of
`import <names> = require(<path>)`, which no grammar knows, only the clause is blanked and the call
is left; otherwise the line of the fault goes, or the next line above it that holds anything.

The parser is a parameter: any function that gives a tree or the offset of a fault. So what is said
here about the text in hand holds whatever the parser does.

## Results

* `Blanking.byteLength_apply`: a blanking keeps the length of the text.
-/

namespace Relocation

open Text

-- ---------------------------------------------------------------------------
-- Blankings
-- ---------------------------------------------------------------------------

/-- A stretch of the text that is to be blanked. -/
structure Blanking where
  start : Nat
  stop : Nat
  /-- The call that the stretch leads to, if it is a binding clause. -/
  call : Option Nat
  deriving Repr, DecidableEq, Inhabited

namespace Blanking

/-- Blanks the stretch. -/
def apply (blanking : Blanking) (text : List Char) : List Char :=
  match cutAt? text blanking.stop with
  | none => text
  | some (front, back) =>
    match cutAt? front blanking.start with
    | none => text
    | some (kept, stretch) => kept ++ blanked stretch ++ back

/-- A blanking keeps the length of the text. -/
theorem byteLength_apply (blanking : Blanking) (text : List Char) :
    byteLength (blanking.apply text) = byteLength text := by
  unfold apply
  split
  · rfl
  · rename_i front back hcut
    obtain ⟨rfl, _⟩ := cutAt?_eq_some_iff.1 hcut
    split
    · rfl
    · rename_i kept stretch hcut'
      obtain ⟨rfl, _⟩ := cutAt?_eq_some_iff.1 hcut'
      simp

end Blanking

-- ---------------------------------------------------------------------------
-- Binding clauses
-- ---------------------------------------------------------------------------

theorem byteLength_import : byteLength "import".toList = 6 := by decide

/-- Whether the character continues an ASCII identifier. -/
def continuesWord (c : Char) : Bool := c.isAlphanum || c == '_' || c == '$'

/-- Whether a binding clause may start with the character. -/
def startsClause (c : Char) : Bool := isAsciiBlank c || c == '{' || c == '*'

/-- Whether the text between `import` and the equality sign can be a binding clause. -/
def isClause (clause : List Char) : Bool :=
  !allBlank clause && clause.all fun c => !(['\'', '"', ';', '\x60', '(', ')'].contains c)

/-- What follows the word `require` if the text starts with a call of it. -/
def afterCallee? (text : List Char) : Option (List Char) :=
  match "require".toList.isPrefixOf? text with
  | some rest => if (dropBlank rest).head? = some '(' then some rest else none
  | none => none

/-- The binding clause around a fault: the last `import` before the fault starts it, and the fault
lies before the call that follows it. -/
def bindingClauseAt? (text : List Char) (fault : Nat) : Option Blanking := do
  let (before, after) ← cutAt? text fault
  let (front, inside) ← splitAtLast? "import".toList before
  if front.getLast?.any continuesWord then none
  let behind := inside ++ after
  if !behind.head?.any startsClause then none
  let (clause, value) ← splitAtFirst? ['='] behind
  if value.head?.any fun c => c == '=' || c == '>' then none
  if !isClause clause then none
  let blanks := value.takeWhile isBlank
  let start := byteLength front
  let stop := start + byteLength "import".toList + byteLength clause + 1
  let call := stop + byteLength blanks
  if call < fault then none
  let _ ← afterCallee? (dropBlank value)
  return ⟨start, stop, some call⟩

-- ---------------------------------------------------------------------------
-- Lines
-- ---------------------------------------------------------------------------

/-- The last line that is not blank, of a text that is cut in its last line. -/
def filledLine? (before after : List Char) : Option Blanking :=
  match _hsplit : splitAtLast? ['\n'] before with
  | some (above, head) =>
    let line := head ++ after.takeWhile (· != '\n')
    if allBlank line then filledLine? above ['\n']
    else
      let start := byteLength above + 1
      some ⟨start, start + byteLength line, none⟩
  | none =>
    let line := before ++ after.takeWhile (· != '\n')
    if allBlank line then none else some ⟨0, byteLength line, none⟩
termination_by before.length
decreasing_by
  have hparts := eq_append_of_splitAtLast? _hsplit
  simp only [hparts, List.length_append, List.length_cons, List.length_nil]
  omega

/-- The line that holds the offset, or the next one above it that is not blank. -/
def filledLineAt? (text : List Char) (offset : Nat) : Option Blanking :=
  match cutAt? text offset with
  | some (before, after) => filledLine? before after
  | none => none

-- ---------------------------------------------------------------------------
-- Recovery
-- ---------------------------------------------------------------------------

/-- What is blanked on account of a fault. -/
def blankingFor? (text : List Char) (fault : Nat) : Option Blanking :=
  (bindingClauseAt? text fault).or (filledLineAt? text fault)

/-- The text in hand in the course of the recovery. -/
structure Working where
  text : List Char
  /-- Where the calls start that blanked binding clauses led to. -/
  calls : List Nat
  deriving Repr, DecidableEq, Inhabited

namespace Working

/-- The text after one more blanking. -/
def blank (working : Working) (blanking : Blanking) : Working where
  text := blanking.apply working.text
  calls := working.calls ++ blanking.call.toList

/-- The text after the blanking for a fault. A fault behind the text counts as one at its end. -/
def step? (working : Working) (fault : Nat) : Option Working :=
  (blankingFor? working.text (min fault (byteLength working.text))).map working.blank

end Working

/-- A tree, and the text that it was parsed from. -/
structure Recovered (Tree : Type) where
  tree : Tree
  working : Working
  deriving Repr

/-- Parses the text, with at most `blankings` blankings in between. -/
def recoverWithin {Tree : Type} (parse : List Char → Except Nat Tree) :
    (blankings : Nat) → Working → Option (Recovered Tree)
  | blankings, working =>
    match parse working.text with
    | .ok tree => some ⟨tree, working⟩
    | .error fault =>
      match blankings with
      | 0 => none
      | blankings + 1 =>
        match working.step? fault with
        | some next => recoverWithin parse blankings next
        | none => none

/-- The number of blankings after which a text is given up. -/
def blankingLimit : Nat := 64

/-- Parses the text, and recovers from faults. -/
def recover? {Tree : Type} (parse : List Char → Except Nat Tree) (source : List Char) :
    Option (Recovered Tree) :=
  recoverWithin parse blankingLimit ⟨source, []⟩

end Relocation

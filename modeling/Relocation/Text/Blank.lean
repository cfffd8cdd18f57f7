import Relocation.Text.Basic

/-!
# Blank characters and blanking

`isBlank` is the Unicode property White_Space. `blanked` overwrites a stretch of text with spaces,
one for each byte, and keeps the line breaks, so that every offset outside the stretch, and every
line number, means the same before and after.

## Results

* `byteLength_blanked`: blanking keeps the length;
* `isBlank_of_mem_blanked`: a blanked stretch holds blank characters only.
-/

namespace Relocation.Text

-- ---------------------------------------------------------------------------
-- Blank characters
-- ---------------------------------------------------------------------------

/-- The Unicode property White_Space. -/
def isBlank (c : Char) : Bool :=
  let n := c.toNat
  (0x09 ≤ n && n ≤ 0x0d) || n == 0x20 || n == 0x85 || n == 0xa0 || n == 0x1680
    || (0x2000 ≤ n && n ≤ 0x200a) || n == 0x2028 || n == 0x2029 || n == 0x202f || n == 0x205f
    || n == 0x3000

/-- ASCII whitespace without the vertical tab. -/
def isAsciiBlank (c : Char) : Bool :=
  c == ' ' || c == '\t' || c == '\n' || c == '\x0c' || c == '\r'

/-- Whether all characters of the text are blank. -/
def allBlank (cs : List Char) : Bool := cs.all isBlank

/-- The text without the blank characters at its start. -/
def dropBlank (cs : List Char) : List Char := cs.dropWhile isBlank

/-- The text without the blank characters at its two ends. -/
def trim (cs : List Char) : List Char := (dropBlank (dropBlank cs).reverse).reverse

-- ---------------------------------------------------------------------------
-- Blanking
-- ---------------------------------------------------------------------------

/-- What blanking puts in place of a character: a line break stays, anything else becomes a space
for each of its bytes. -/
def blankedChar (c : Char) : List Char :=
  if c = '\n' ∨ c = '\r' then [c] else List.replicate c.utf8Size ' '

/-- The text with everything but line breaks overwritten by spaces. -/
def blanked : List Char → List Char
  | [] => []
  | c :: cs => blankedChar c ++ blanked cs

theorem byteLength_replicate_space (n : Nat) : byteLength (List.replicate n ' ') = n := by
  induction n with
  | zero => rfl
  | succ n ih =>
    rw [List.replicate_succ, byteLength_cons, ih]
    have : ' '.utf8Size = 1 := by decide
    omega

theorem byteLength_blankedChar (c : Char) : byteLength (blankedChar c) = c.utf8Size := by
  unfold blankedChar
  split
  · simp
  · exact byteLength_replicate_space _

/-- Blanking keeps the length. -/
@[simp] theorem byteLength_blanked (cs : List Char) : byteLength (blanked cs) = byteLength cs := by
  induction cs with
  | nil => rfl
  | cons c cs ih => simp [blanked, byteLength_blankedChar, ih]

theorem blanked_append (a b : List Char) : blanked (a ++ b) = blanked a ++ blanked b := by
  induction a with
  | nil => rfl
  | cons c cs ih => rw [List.cons_append, blanked, blanked, ih, List.append_assoc]

/-- A blanked stretch holds blank characters only. -/
theorem isBlank_of_mem_blanked {cs : List Char} {c : Char} (h : c ∈ blanked cs) :
    isBlank c = true := by
  induction cs with
  | nil => simp [blanked] at h
  | cons d ds ih =>
    simp only [blanked, List.mem_append] at h
    rcases h with h | h
    · unfold blankedChar at h
      split at h
      · rename_i hd
        rw [List.mem_singleton] at h
        subst h
        rcases hd with rfl | rfl <;> decide
      · rw [List.eq_of_mem_replicate h]
        decide
    · exact ih h

end Relocation.Text

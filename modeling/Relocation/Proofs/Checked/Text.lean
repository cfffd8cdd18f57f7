import Relocation.Proofs.Text.Bytes
import Relocation.Text.Blank

/-!
# Operations that can fail

On a text with byte offsets the plain operations are partial: a slice fails if its ends are out of
bounds, inside a character or in the wrong order, an index fails behind the end of a list, and a
difference fails below zero. Here they are with their failures, so that a program made of them
shows where it would stop. The operations that ask first, and answer with `none` or `false`, cannot
fail and are taken as they are.

## Results

* `minus_eq_ok`, `sliceFrom_eq_ok`, `slice_eq_ok`, `replaceRange_eq_ok`: where the operations
  succeed, and with what;
* `Reads.byteBefore`, `Reads.byteAt`: a test of the byte beside an offset is one of the character.
-/

namespace Relocation.Checked

open Text

-- ---------------------------------------------------------------------------
-- Partial operations
-- ---------------------------------------------------------------------------

/-- The ways in which an operation fails. -/
inductive Trap where
  /-- An offset or an index lies behind the end. -/
  | outOfBounds
  /-- An offset falls inside a character. -/
  | insideChar
  /-- A range ends before it starts. -/
  | reversed
  /-- A difference is less than zero. -/
  | belowZero
  deriving Repr, DecidableEq, Inhabited

/-- The difference of two numbers. -/
def minus (a b : Nat) : Except Trap Nat := if b ≤ a then .ok (a - b) else .error .belowZero

/-- The member of a list at an index. -/
def nth {α : Type} (list : List α) (i : Nat) : Except Trap α :=
  match list[i]? with
  | some a => .ok a
  | none => .error .outOfBounds

/-- The first members of a list. -/
def firsts {α : Type} (list : List α) (n : Nat) : Except Trap (List α) :=
  if n ≤ list.length then .ok (list.take n) else .error .outOfBounds

/-- The two parts of a text, cut at an offset. -/
def cutAt (text : List Char) (offset : Nat) : Except Trap (List Char × List Char) :=
  match cutAt? text offset with
  | some parts => .ok parts
  | none => .error (if byteLength text < offset then .outOfBounds else .insideChar)

/-- The text from an offset on. -/
def sliceFrom (text : List Char) (start : Nat) : Except Trap (List Char) :=
  (cutAt text start).map Prod.snd

/-- The text between two offsets. -/
def slice (text : List Char) (start stop : Nat) : Except Trap (List Char) :=
  if stop < start then .error .reversed
  else do
    let (front, _) ← cutAt text stop
    sliceFrom front start

/-- The text with another stretch between two offsets. -/
def replaceRange (text : List Char) (start stop : Nat) (stretch : List Char) :
    Except Trap (List Char) :=
  if stop < start then .error .reversed
  else do
    let (front, back) ← cutAt text stop
    let (kept, _) ← cutAt front start
    return kept ++ (stretch ++ back)

theorem minus_eq_ok {a b : Nat} (h : b ≤ a) : minus a b = .ok (a - b) := if_pos h

theorem le_of_minus_eq_ok {a b n : Nat} (h : minus a b = .ok n) : b ≤ a ∧ n = a - b := by
  unfold minus at h
  split at h
  · rename_i hLe
    exact ⟨hLe, (Except.ok.inj h).symm⟩
  · contradiction

theorem nth_eq_ok {α : Type} {list : List α} {i : Nat} {a : α} (h : list[i]? = some a) :
    nth list i = .ok a := by
  rw [nth, h]

theorem firsts_eq_ok {α : Type} {list : List α} {n : Nat} (h : n ≤ list.length) :
    firsts list n = .ok (list.take n) := if_pos h

section Cuts

variable {text a b c : List Char} {start stop : Nat}

theorem cutAt_eq_ok (hText : text = a ++ b) (hStart : byteLength a = start) :
    cutAt text start = .ok (a, b) := by
  rw [cutAt, cutAt?_eq_some_iff.2 ⟨hText, hStart⟩]

theorem sliceFrom_eq_ok (hText : text = a ++ b) (hStart : byteLength a = start) :
    sliceFrom text start = .ok b := by
  rw [sliceFrom, cutAt_eq_ok hText hStart]
  rfl

/-- The slice of a stretch gives the stretch. -/
theorem slice_eq_ok (hText : text = a ++ (b ++ c)) (hStart : byteLength a = start)
    (hStop : start + byteLength b = stop) : slice text start stop = .ok b := by
  have hCut : cutAt text stop = .ok (a ++ b, c) :=
    cutAt_eq_ok (by rw [hText, List.append_assoc]) (by rw [byteLength_append]; omega)
  rw [slice, if_neg (by omega), hCut]
  exact sliceFrom_eq_ok rfl hStart

/-- A stretch is exchanged for another one. -/
theorem replaceRange_eq_ok (hText : text = a ++ (b ++ c)) (hStart : byteLength a = start)
    (hStop : start + byteLength b = stop) (stretch : List Char) :
    replaceRange text start stop stretch = .ok (a ++ (stretch ++ c)) := by
  have hCut : cutAt text stop = .ok (a ++ b, c) :=
    cutAt_eq_ok (by rw [hText, List.append_assoc]) (by rw [byteLength_append]; omega)
  have hKept : cutAt (a ++ b) start = .ok (a, b) := cutAt_eq_ok rfl hStart
  rw [replaceRange, if_neg (by omega), hCut]
  show (do let (kept, _) ← cutAt (a ++ b) start; return kept ++ (stretch ++ c)) = _
  rw [hKept]
  rfl

end Cuts

example : slice ['é'] 1 2 = .error .insideChar := by decide

theorem ok_bind {α β : Type} (a : α) (f : α → Except Trap β) : (Except.ok a >>= f) = f a := rfl

-- ---------------------------------------------------------------------------
-- Operations that ask first
-- ---------------------------------------------------------------------------

/-- The text before an offset, if it can be cut there. -/
def frontTo? (text : List Char) (offset : Nat) : Option (List Char) :=
  (cutAt? text offset).map Prod.fst

/-- The offset of the first place where the word stands. -/
def find? (word text : List Char) : Option Nat :=
  (splitAtFirst? word text).map fun parts => byteLength parts.1

/-- The offset of the last place where the word stands. -/
def findLast? (word text : List Char) : Option Nat :=
  (splitAtLast? word text).map fun parts => byteLength parts.1

-- ---------------------------------------------------------------------------
-- Tests of single bytes
-- ---------------------------------------------------------------------------

/-- Each byte of a character passes the one test if the character passes the other. -/
def Reads (test : UInt8 → Bool) (test' : Char → Bool) : Prop :=
  ∀ c, ∀ b ∈ String.utf8EncodeChar c, test b = test' c

/-- Tests that agree below 128, and that nothing else passes. -/
theorem Reads.of_ascii {test : UInt8 → Bool} {test' : Char → Bool}
    (hAscii : ∀ n < 0x80, test (UInt8.ofNat n) = test' (Char.ofNat n))
    (hBytes : ∀ n < 0x100, 0x80 ≤ n → test (UInt8.ofNat n) = false)
    (hChars : ∀ c : Char, 0x80 ≤ c.toNat → test' c = false) : Reads test test' := by
  intro c b hMem
  by_cases hb : b.toNat < 0x80
  · obtain ⟨hc, rfl⟩ := eq_of_mem_encoding hMem hb
    have hHere := hAscii c.toNat hc
    rwa [Char.ofNat_toNat] at hHere
  · have hb' := hBytes b.toNat b.toNat_lt (by omega)
    rw [UInt8.ofNat_toNat] at hb'
    rw [hb', eq_comm]
    refine hChars c ?_
    by_contra hc
    rw [encoding_of_lt (by omega), List.mem_singleton] at hMem
    subst hMem
    simp only [byteOf, UInt8.toNat_ofNat'] at hb
    omega

namespace Reads

variable {test : UInt8 → Bool} {test' : Char → Bool}

/-- The byte at the end of a front part is one of the character behind it. -/
theorem byteAt (h : Reads test test') {text a b : List Char} {offset : Nat}
    (hText : text = a ++ b) (hOffset : byteLength a = offset) :
    (bytes text)[offset]?.any test = b.head?.any test' := by
  subst hOffset
  rw [hText, bytes_append, List.getElem?_append_right (by simp), length_bytes, Nat.sub_self]
  cases b with
  | nil => rfl
  | cons c b =>
    have hLength := String.length_utf8EncodeChar c
    have hPos := Char.utf8Size_pos c
    cases hBytes : String.utf8EncodeChar c with
    | nil =>
      rw [hBytes, List.length_nil] at hLength
      omega
    | cons byte more =>
      rw [bytes_cons, hBytes]
      exact h c byte (by simp [hBytes])

/-- The byte before the end of a front part is one of the last character of the part. -/
theorem byteBefore (h : Reads test test') {a : List Char} (hNe : a ≠ []) (b : List Char) :
    ∃ byte, (bytes (a ++ b))[byteLength a - 1]? = some byte ∧
      test byte = a.getLast?.any test' := by
  obtain ⟨front, c, rfl⟩ := List.eq_nil_or_concat a |>.resolve_left hNe
  have hLength := String.length_utf8EncodeChar c
  have hPos := Char.utf8Size_pos c
  have hLast : c.utf8Size - 1 < (String.utf8EncodeChar c).length := by omega
  refine ⟨(String.utf8EncodeChar c)[c.utf8Size - 1], ?_, ?_⟩
  · rw [List.concat_eq_append, List.append_assoc, bytes_append, byteLength_append,
      List.getElem?_append_right (by simp; omega), length_bytes, List.singleton_append, bytes_cons,
      List.getElem?_append_left (by simp; omega), ← List.getElem?_eq_getElem hLast]
    congr 1
    simp
    omega
  · rw [List.concat_eq_append, List.getLast?_concat]
    exact h c _ (List.getElem_mem hLast)

end Reads

end Relocation.Checked

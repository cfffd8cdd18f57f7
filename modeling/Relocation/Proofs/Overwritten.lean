import Relocation.Imports
import Relocation.Proofs.Attempts
import Relocation.Proofs.Text.Bytes

/-!
# The bytes that recovery overwrites

Whatever the parser reports and however often, the text in hand is valid UTF-8 of the length of the
source, and differs from it only by spaces in place of other bytes, none of them a line break. So
an offset means the same in both texts: the line that it lies in, and, unless its byte has been
overwritten, the character.

## Results

* `Blanks.overwritten`: what blanking characters does to the bytes;
* `attempt?_overwritten`: the text in hand at an attempt, byte by byte.
-/

namespace Relocation

open Text

variable {source text : List Char}

-- ---------------------------------------------------------------------------
-- Overwritten texts
-- ---------------------------------------------------------------------------

/-- The byte at the offset belongs to a character that both texts have at the same place. -/
def SharesChar (source text : List Char) (offset : Nat) : Prop :=
  ∃ start c, CharAt source start c ∧ CharAt text start c ∧ start ≤ offset ∧
    offset < start + c.utf8Size

/-- The text is the source with spaces in place of some of its bytes. -/
structure Overwritten (source text : List Char) : Prop where
  valid : (bytes text).toByteArray.IsValidUTF8
  length : (bytes text).length = (bytes source).length
  /-- A byte is as in the source, or a space in place of a byte that is no line break. -/
  byte : ∀ i : Nat, (bytes text)[i]? = (bytes source)[i]? ∨
    (bytes text)[i]? = some (byteOf ' ') ∧ (bytes source)[i]? ≠ some (byteOf '\n') ∧
      (bytes source)[i]? ≠ some (byteOf '\r')
  lineFeed : ∀ i : Nat,
    (bytes text)[i]? = some (byteOf '\n') ↔ (bytes source)[i]? = some (byteOf '\n')
  line : ∀ offset, lineOf text offset = lineOf source offset
  /-- A byte that is as in the source is part of the character that it is part of there. -/
  shared : ∀ i < byteLength source, (bytes text)[i]? = (bytes source)[i]? →
    SharesChar source text i

-- ---------------------------------------------------------------------------
-- Blanked characters, byte by byte
-- ---------------------------------------------------------------------------

theorem bytes_replicate_space (n : Nat) :
    bytes (List.replicate n ' ') = List.replicate n (byteOf ' ') := by
  induction n with
  | zero => rfl
  | succ n ih =>
    rw [List.replicate_succ, bytes_cons, ih, encoding_of_lt (by decide)]
    rfl

/-- A blanked text is made of characters that are kept and of spaces in place of others, for line
breaks are always kept. -/
theorem Blanks.spaces_induction {motive : ∀ source text, Blanks source text → Prop}
    (nil : motive [] [] .nil)
    (keep : ∀ c source text h, motive source text h → motive (c :: source) (c :: text) (.keep c h))
    (spaces : ∀ c source text h h', c ≠ '\n' → c ≠ '\r' → motive source text h →
      motive (c :: source) (List.replicate c.utf8Size ' ' ++ text) h')
    {source text : List Char} (h : Blanks source text) : motive source text h := by
  induction h with
  | nil => exact nil
  | keep c h ih => exact keep c _ _ h ih
  | @blank source text c h ih =>
    have hBlank : Blanks (c :: source) (blankedChar c ++ text) := .blank c h
    show motive (c :: source) (blankedChar c ++ text) hBlank
    generalize hFront : blankedChar c = front at hBlank
    rw [blankedChar] at hFront
    split at hFront
    · subst hFront
      exact keep c source text h ih
    · rename_i hBreak
      subst hFront
      exact spaces c source text h hBlank (fun hFeed => hBreak (.inl hFeed))
        (fun hReturn => hBreak (.inr hReturn)) ih

/-- The byte at an offset is the same, or a space in place of one that is no line break. -/
theorem Blanks.byte (h : Blanks source text) (i : Nat) :
    (bytes text)[i]? = (bytes source)[i]? ∨
      (bytes text)[i]? = some (byteOf ' ') ∧ (bytes source)[i]? ≠ some (byteOf '\n') ∧
        (bytes source)[i]? ≠ some (byteOf '\r') := by
  induction h using Blanks.spaces_induction generalizing i with
  | nil => exact .inl rfl
  | keep c source text _ ih =>
    rw [bytes_cons, bytes_cons, List.getElem?_append, List.getElem?_append]
    split
    · exact .inl rfl
    · exact ih _
  | spaces c source text _ _ hFeed hReturn ih =>
    rw [bytes_cons, bytes_append, bytes_replicate_space, List.getElem?_append,
      List.getElem?_append, List.length_replicate, String.length_utf8EncodeChar]
    split
    · rename_i hHere
      -- a line break among the bytes of the character would be the character itself
      have hNot {d : Char} (hd : d.toNat < 0x80) (hNe : c ≠ d) :
          (String.utf8EncodeChar c)[i]? ≠ some (byteOf d) :=
        fun hByte => hNe (eq_of_byteOf_mem hd (List.mem_of_getElem? hByte))
      exact .inr ⟨List.getElem?_replicate_of_lt hHere, hNot (by decide) hFeed,
        hNot (by decide) hReturn⟩
    · exact ih _

theorem Blanks.lineFeed_iff (h : Blanks source text) (i : Nat) :
    (bytes text)[i]? = some (byteOf '\n') ↔ (bytes source)[i]? = some (byteOf '\n') := by
  rcases h.byte i with hSame | ⟨hSpace, hFeed, -⟩
  · rw [hSame]
  · have hNot : ¬byteOf ' ' = byteOf '\n' := by decide
    simp [hSpace, hFeed, hNot]

/-- Lists that have a value at the same places have it as often in front of a place. -/
theorem count_take_eq {α : Type} [DecidableEq α] {l l' : List α} {a : α}
    (hLength : l.length = l'.length) (h : ∀ i : Nat, l[i]? = some a ↔ l'[i]? = some a) (n : Nat) :
    (l.take n).count a = (l'.take n).count a := by
  have hMarks : l.map (· == a) = l'.map (· == a) := by
    refine List.ext_getElem (by simpa using hLength) fun i hi hi' => ?_
    rw [List.length_map] at hi hi'
    have hHere := h i
    rw [List.getElem?_eq_getElem hi, List.getElem?_eq_getElem hi', Option.some.injEq,
      Option.some.injEq] at hHere
    rw [List.getElem_map, List.getElem_map, Bool.eq_iff_iff, beq_iff_eq, beq_iff_eq, hHere]
  have hCount (k : List α) : (k.take n).count a = ((k.map (· == a)).take n).countP id := by
    rw [← List.map_take, List.countP_map]
    rfl
  rw [hCount, hCount, hMarks]

/-- Blanking keeps the line of every offset. -/
theorem Blanks.lineOf_eq (h : Blanks source text) (offset : Nat) :
    lineOf text offset = lineOf source offset := by
  rw [lineOf, lineOf, lineFeedsBefore_eq_count, lineFeedsBefore_eq_count,
    count_take_eq (by simp [h.byteLength_eq]) h.lineFeed_iff]

theorem SharesChar.cons {c : Char} {i : Nat} (hRest : SharesChar source text (i - c.utf8Size))
    (h : c.utf8Size ≤ i) (front : List Char) (hFront : byteLength front = c.utf8Size) :
    SharesChar (c :: source) (front ++ text) i := by
  obtain ⟨start, d, hSource, hText, hLe, hLt⟩ := hRest
  have hSource' := hSource.append_left [c]
  have hText' := hText.append_left front
  rw [byteLength_cons, byteLength_nil, Nat.add_zero] at hSource'
  rw [hFront] at hText'
  exact ⟨c.utf8Size + start, d, hSource', hText', by omega, by omega⟩

/-- A byte that is as in the source is part of the character that it is part of there. -/
theorem Blanks.sharesChar (h : Blanks source text) {i : Nat} (hLt : i < byteLength source)
    (hSame : (bytes text)[i]? = (bytes source)[i]?) : SharesChar source text i := by
  induction h using Blanks.spaces_induction generalizing i with
  | nil => simp at hLt
  | keep c source text _ ih =>
    rw [bytes_cons, bytes_cons, List.getElem?_append, List.getElem?_append,
      String.length_utf8EncodeChar] at hSame
    rw [byteLength_cons] at hLt
    split at hSame
    · rename_i hHere
      exact ⟨0, c, ⟨[], source, rfl, rfl⟩, ⟨[], text, rfl, rfl⟩, Nat.zero_le i, by omega⟩
    · exact (ih (by omega) hSame).cons (by omega) [c] (by simp)
  | spaces c source text _ _ hFeed hReturn ih =>
    rw [bytes_cons, bytes_append, bytes_replicate_space, List.getElem?_append,
      List.getElem?_append, List.length_replicate, String.length_utf8EncodeChar] at hSame
    rw [byteLength_cons] at hLt
    split at hSame
    · rename_i hHere
      -- the byte is a space, so it is the character
      rw [List.getElem?_replicate_of_lt hHere] at hSame
      obtain rfl : c = ' ' := eq_of_byteOf_mem (by decide) (List.mem_of_getElem? hSame.symm)
      exact ⟨0, ' ', ⟨[], source, rfl, rfl⟩, ⟨[], text, rfl, rfl⟩, Nat.zero_le i, by omega⟩
    · exact (ih (by omega) hSame).cons (by omega) _ (byteLength_replicate_space _)

/-- What blanking characters does to the bytes. -/
theorem Blanks.overwritten (h : Blanks source text) : Overwritten source text where
  valid := isValidUTF8_bytes text
  length := by rw [length_bytes, length_bytes, h.byteLength_eq]
  byte := h.byte
  lineFeed := h.lineFeed_iff
  line := h.lineOf_eq
  shared := fun _ => h.sharesChar

-- ---------------------------------------------------------------------------
-- The text in hand
-- ---------------------------------------------------------------------------

/-- **Recovery only overwrites.** At every attempt the text in hand is the source with spaces in
place of some bytes that are no line breaks: it is as long, it is valid, its line feeds stand
where they stood, each offset is on the line that it was on, and bytes that are kept belong to the
characters that they belonged to.

`h` says that recovery comes to the attempt and has this text there. The parser is any function:
it may fail anywhere and report any offset, in the text or beyond it, so nothing depends on where
the faults lie. -/
theorem attempt?_overwritten {Tree : Type} {parse : List Char → Except Nat Tree} {n : Nat}
    {working : Working} (h : attempt? parse source n = some working) :
    Overwritten source working.text :=
  (attempt?_accounted h).blanks.overwritten

/-- A binding clause over two lines and a broken line behind it, with characters of two bytes. -/
def twoFaults : List Char := "import \x7b é,\n\x7d = require('b')\n)ü\r\n".toList

/-- The third attempt at the two faults has both of them overwritten. -/
theorem overwritten_twoFaults :
    let parse := fun text => TypeScript.itemsOf (.ofFileName "a") (withoutMark text)
    let working : Working := ⟨"            \n    require('b')\n   \r\n".toList, [17]⟩
    attempt? parse twoFaults 2 = some working ∧ Overwritten twoFaults working.text := by
  intro parse working
  have hAttempt : attempt? parse twoFaults 2 = some working := by decide +kernel
  exact ⟨hAttempt, attempt?_overwritten hAttempt⟩

end Relocation

import Relocation.Proofs.Text.Cuts

/-!
# The bytes of a text

Offsets count the bytes of the UTF-8 form of a text. Here these bytes are themselves at hand, for
what is said of a text byte by byte. A byte below 128 is never a part of a longer character, so it
stands for itself; line feeds, which count the lines, can be counted among the bytes.

## Results

* `length_bytes`: there are as many bytes as offsets;
* `eq_of_mem_encoding`: a byte below 128 is a character by itself;
* `getElem?_bytes_iff_charAt`: such a byte stands where its character stands;
* `lineFeedsBefore_eq_count`: the line feeds before an offset, counted among the bytes.
-/

namespace Relocation.Text

variable {cs : List Char} {c : Char} {offset : Nat}

-- ---------------------------------------------------------------------------
-- Bytes
-- ---------------------------------------------------------------------------

/-- The bytes of the text in UTF-8. -/
def bytes (cs : List Char) : List UInt8 := cs.flatMap String.utf8EncodeChar

@[simp] theorem bytes_nil : bytes [] = [] := rfl

@[simp] theorem bytes_cons (c : Char) (cs : List Char) :
    bytes (c :: cs) = String.utf8EncodeChar c ++ bytes cs := rfl

@[simp] theorem bytes_append (a b : List Char) : bytes (a ++ b) = bytes a ++ bytes b :=
  List.flatMap_append

/-- There are as many bytes as offsets. -/
@[simp] theorem length_bytes (cs : List Char) : (bytes cs).length = byteLength cs := by
  induction cs with
  | nil => rfl
  | cons c cs ih => simp [ih]

theorem isValidUTF8_bytes (cs : List Char) : (bytes cs).toByteArray.IsValidUTF8 := ⟨cs, rfl⟩

/-- The byte of a character that takes one. -/
def byteOf (c : Char) : UInt8 := UInt8.ofNat c.toNat

theorem byteOf_injective {c d : Char} (hc : c.toNat < 0x80) (hd : d.toNat < 0x80)
    (h : byteOf c = byteOf d) : c = d := by
  have hNat := congrArg UInt8.toNat h
  simp only [byteOf, UInt8.toNat_ofNat'] at hNat
  exact Char.toNat_inj.1 (by omega)

theorem utf8Size_of_lt (h : c.toNat < 0x80) : c.utf8Size = 1 := by
  rw [Char.utf8Size_eq_one_iff, UInt32.le_iff_toNat_le]
  exact Nat.le_of_lt_succ h

theorem encoding_of_lt (h : c.toNat < 0x80) : String.utf8EncodeChar c = [byteOf c] := by
  unfold String.utf8EncodeChar
  exact if_pos (Nat.le_of_lt_succ h)

/-- A byte below 128 is a character by itself. -/
theorem eq_of_mem_encoding {b : UInt8} (h : b ∈ String.utf8EncodeChar c) (hb : b.toNat < 0x80) :
    c.toNat < 0x80 ∧ b = byteOf c := by
  unfold String.utf8EncodeChar at h
  dsimp only at h
  split at h
  · rename_i hSmall
    exact ⟨Nat.lt_succ_of_le hSmall, List.mem_singleton.1 h⟩
  · -- every byte of a longer character is at least 128
    have hLarge : 0x80 ≤ b.toNat := by
      split at h
      · rcases List.mem_pair.1 h with rfl | rfl <;> simp only [UInt8.toNat_ofNat'] <;> omega
      · split at h
        · simp only [List.mem_cons, List.not_mem_nil, or_false] at h
          rcases h with rfl | rfl | rfl <;> simp only [UInt8.toNat_ofNat'] <;> omega
        · simp only [List.mem_cons, List.not_mem_nil, or_false] at h
          rcases h with rfl | rfl | rfl | rfl <;> simp only [UInt8.toNat_ofNat'] <;> omega
    omega

/-- The byte of a character that takes one is the byte of no other character. -/
theorem eq_of_byteOf_mem {d : Char} (hd : d.toNat < 0x80)
    (h : byteOf d ∈ String.utf8EncodeChar c) : c = d := by
  have hSmall : (byteOf d).toNat < 0x80 := by
    simp only [byteOf, UInt8.toNat_ofNat']
    omega
  obtain ⟨hc, hSame⟩ := eq_of_mem_encoding h hSmall
  exact (byteOf_injective hd hc hSame).symm

/-- A byte below 128 stands where its character stands. -/
theorem getElem?_bytes_iff_charAt (h : c.toNat < 0x80) :
    (bytes cs)[offset]? = some (byteOf c) ↔ CharAt cs offset c := by
  constructor
  · intro hByte
    induction cs generalizing offset with
    | nil => simp at hByte
    | cons d cs ih =>
      rw [bytes_cons, List.getElem?_append] at hByte
      split at hByte
      · rename_i hHere
        obtain rfl : d = c := eq_of_byteOf_mem h (List.mem_of_getElem? hByte)
        rw [String.length_utf8EncodeChar, utf8Size_of_lt h] at hHere
        obtain rfl : offset = 0 := by omega
        exact ⟨[], cs, rfl, rfl⟩
      · rename_i hBehind
        rw [String.length_utf8EncodeChar] at hByte hBehind
        have hShift := (ih hByte).append_left [d]
        rwa [byteLength_cons, byteLength_nil, Nat.add_zero, Nat.add_sub_cancel' (by omega)]
          at hShift
  · rintro ⟨front, behind, rfl, rfl⟩
    rw [bytes_append, ← length_bytes, List.getElem?_append_right (Nat.le_refl _), Nat.sub_self,
      bytes_cons, encoding_of_lt h]
    rfl

-- ---------------------------------------------------------------------------
-- Lines
-- ---------------------------------------------------------------------------

/-- The line feeds before an offset can be counted among the bytes. -/
theorem lineFeedsBefore_eq_count (cs : List Char) (offset : Nat) :
    lineFeedsBefore cs offset = ((bytes cs).take offset).count (byteOf '\n') := by
  induction cs generalizing offset with
  | nil => simp [lineFeedsBefore]
  | cons c cs ih =>
    cases offset with
    | zero => simp [lineFeedsBefore]
    | succ offset =>
      have hSize := Char.utf8Size_pos c
      rw [lineFeedsBefore, ih, bytes_cons, List.take_append, List.count_append,
        String.length_utf8EncodeChar]
      congr 1
      by_cases hFeed : c = '\n'
      · subst hFeed
        rw [encoding_of_lt (by decide)]
        simp
      · rw [if_neg hFeed, eq_comm, List.count_eq_zero]
        exact fun hMem => hFeed (eq_of_byteOf_mem (by decide) (List.mem_of_mem_take hMem))

end Relocation.Text

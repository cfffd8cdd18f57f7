/-!
# Text with byte offsets

A text is a list of characters. Offsets into it count the bytes of its UTF-8 form, so an offset
either falls between two characters or inside one. This module holds the measure (`byteLength`),
the cut at an offset (`cutAt?`, which refuses an offset inside a character or past the end) and
the line number of an offset.

## Results

* `byteLength_append`: lengths add up;
* `cutAt?_eq_some_iff`: a cut succeeds exactly at the length of a front part, and gives that part;
* `eq_append_of_splitAtFirst?`, `eq_append_of_splitAtLast?`: the parts around a word make up the
  text.
-/

namespace Relocation.Text

-- ---------------------------------------------------------------------------
-- Length
-- ---------------------------------------------------------------------------

/-- The number of bytes of the text in UTF-8. -/
def byteLength : List Char → Nat
  | [] => 0
  | c :: cs => c.utf8Size + byteLength cs

@[simp] theorem byteLength_nil : byteLength [] = 0 := rfl

@[simp] theorem byteLength_cons (c : Char) (cs : List Char) :
    byteLength (c :: cs) = c.utf8Size + byteLength cs := rfl

/-- Lengths add up. -/
@[simp] theorem byteLength_append (a b : List Char) :
    byteLength (a ++ b) = byteLength a + byteLength b := by
  induction a with
  | nil => simp
  | cons c cs ih => simp [ih, Nat.add_assoc]

-- ---------------------------------------------------------------------------
-- Cutting at an offset
-- ---------------------------------------------------------------------------

/-- Cuts the text at a byte offset: the part before it and the part from it on. There is no cut
inside a character or past the end. -/
def cutAt? : List Char → Nat → Option (List Char × List Char)
  | cs, 0 => some ([], cs)
  | [], _ + 1 => none
  | c :: cs, n + 1 =>
    if c.utf8Size ≤ n + 1 then
      (cutAt? cs (n + 1 - c.utf8Size)).map fun cut => (c :: cut.1, cut.2)
    else none

@[simp] theorem cutAt?_zero (cs : List Char) : cutAt? cs 0 = some ([], cs) := by
  cases cs <;> rfl

/-- The cut at the length of a front part gives that part and the rest. -/
theorem cutAt?_append (a b : List Char) : cutAt? (a ++ b) (byteLength a) = some (a, b) := by
  induction a with
  | nil => simp
  | cons c cs ih =>
    have hpos : 0 < c.utf8Size := Char.utf8Size_pos c
    obtain ⟨n, hn⟩ : ∃ n, byteLength (c :: cs) = n + 1 :=
      ⟨byteLength (c :: cs) - 1, by simp only [byteLength_cons]; omega⟩
    have hsub : n + 1 - c.utf8Size = byteLength cs := by
      simp only [byteLength_cons] at hn; omega
    rw [hn, List.cons_append, cutAt?, if_pos (by simp only [byteLength_cons] at hn; omega), hsub,
      ih]
    rfl

/-- A cut gives two parts that make up the text, the first of them as long as the offset. -/
theorem eq_append_of_cutAt? {cs a b : List Char} {n : Nat} (h : cutAt? cs n = some (a, b)) :
    cs = a ++ b ∧ byteLength a = n := by
  induction cs generalizing n a with
  | nil =>
    cases n with
    | zero => simp_all
    | succ n => simp [cutAt?] at h
  | cons c cs ih =>
    cases n with
    | zero => simp_all
    | succ n =>
      rw [cutAt?] at h
      split at h
      · rename_i hle
        obtain ⟨⟨a', b'⟩, hcut, heq⟩ := Option.map_eq_some_iff.1 h
        obtain ⟨rfl, rfl⟩ := Prod.mk.inj heq
        obtain ⟨rfl, hlen⟩ := ih hcut
        exact ⟨rfl, by simp only [byteLength_cons]; omega⟩
      · simp at h

/-- A cut succeeds exactly at the length of a front part. -/
theorem cutAt?_eq_some_iff {cs a b : List Char} {n : Nat} :
    cutAt? cs n = some (a, b) ↔ cs = a ++ b ∧ byteLength a = n :=
  ⟨eq_append_of_cutAt?, fun ⟨hcs, hn⟩ => by rw [hcs, ← hn, cutAt?_append]⟩

/-- Whether the offset falls between two characters of the text (its ends included). -/
def isBoundary (cs : List Char) (offset : Nat) : Bool := (cutAt? cs offset).isSome

-- ---------------------------------------------------------------------------
-- Lines
-- ---------------------------------------------------------------------------

/-- The number of line feeds whose byte lies before the offset. -/
def lineFeedsBefore : List Char → Nat → Nat
  | [], _ => 0
  | _ :: _, 0 => 0
  | c :: cs, n + 1 =>
    (if c = '\n' then 1 else 0) + lineFeedsBefore cs (n + 1 - c.utf8Size)

/-- The line of an offset, counted from one. Only a line feed ends a line, and an offset past the
end belongs to the last line. -/
def lineOf (cs : List Char) (offset : Nat) : Nat := lineFeedsBefore cs offset + 1

-- ---------------------------------------------------------------------------
-- Searching
-- ---------------------------------------------------------------------------

/-- What follows a front part is the rest of the text. -/
theorem eq_append_of_isPrefixOf? {word cs rest : List Char}
    (h : word.isPrefixOf? cs = some rest) : cs = word ++ rest := by
  induction word generalizing cs with
  | nil =>
    have h : some cs = some rest := h
    exact Option.some.inj h
  | cons w ws ih =>
    match cs with
    | [] =>
      have h : none = some rest := h
      simp at h
    | c :: cs =>
      have h : (if w == c then ws.isPrefixOf? cs else none) = some rest := h
      split at h
      · rename_i heq
        rw [List.cons_append, ← ih h, eq_of_beq heq]
      · simp at h

/-- Splits the text around the first place where `word` stands. -/
def splitAtFirst? (word : List Char) : List Char → Option (List Char × List Char)
  | [] => if word = [] then some ([], []) else none
  | c :: cs =>
    match word.isPrefixOf? (c :: cs) with
    | some rest => some ([], rest)
    | none => (splitAtFirst? word cs).map fun parts => (c :: parts.1, parts.2)

/-- The parts around the first place make up the text. -/
theorem eq_append_of_splitAtFirst? {word cs a b : List Char}
    (h : splitAtFirst? word cs = some (a, b)) : cs = a ++ word ++ b := by
  induction cs generalizing a with
  | nil =>
    rw [splitAtFirst?] at h
    split at h
    · rename_i hword
      simp_all
    · simp at h
  | cons c cs ih =>
    rw [splitAtFirst?] at h
    split at h
    · rename_i rest hrest
      obtain ⟨rfl, rfl⟩ := Prod.mk.inj (Option.some.inj h)
      simpa using eq_append_of_isPrefixOf? hrest
    · obtain ⟨⟨a', b'⟩, hsplit, heq⟩ := Option.map_eq_some_iff.1 h
      obtain ⟨rfl, rfl⟩ := Prod.mk.inj heq
      simp [ih hsplit]

/-- Splits the text around the last place where `word` stands. -/
def splitAtLast? (word : List Char) : List Char → Option (List Char × List Char)
  | [] => if word = [] then some ([], []) else none
  | c :: cs =>
    match splitAtLast? word cs with
    | some parts => some (c :: parts.1, parts.2)
    | none => (word.isPrefixOf? (c :: cs)).map fun rest => ([], rest)

/-- The parts around the last place make up the text. -/
theorem eq_append_of_splitAtLast? {word cs a b : List Char}
    (h : splitAtLast? word cs = some (a, b)) : cs = a ++ word ++ b := by
  induction cs generalizing a with
  | nil =>
    rw [splitAtLast?] at h
    split at h
    · rename_i hword
      simp_all
    · simp at h
  | cons c cs ih =>
    rw [splitAtLast?] at h
    split at h
    · rename_i parts hsplit
      obtain ⟨rfl, rfl⟩ := Prod.mk.inj (Option.some.inj h)
      simp [ih hsplit]
    · obtain ⟨rest, hrest, heq⟩ := Option.map_eq_some_iff.1 h
      obtain ⟨rfl, rfl⟩ := Prod.mk.inj heq
      simpa using eq_append_of_isPrefixOf? hrest

end Relocation.Text

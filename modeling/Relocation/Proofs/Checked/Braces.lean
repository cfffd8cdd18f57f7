import Relocation.Proofs.Braces
import Relocation.Proofs.Checked.Relocated

/-!
# Braces without failures

Alternatives are found on bytes: from an opening brace on the bytes are counted through, with the
depth going up and down, until it is back where it began. The commas on the way and the closing
brace are kept as offsets, and the parts are slices between these. A difference can fall below zero
there, and a slice can have its ends inside a character. Neither happens: the depth is at least one
wherever it goes down, and all the offsets are those of characters with a byte of their own. The
recursion goes no deeper than the text is long.

## Results

* `scanGroup_eq_ok`: the scan of a group finds what reading it finds;
* `firstMarks_eq_ok`: so does the search for the first group;
* `alternativesWithin_eq_ok`: the alternatives are found, and in so many steps;
* `alternatives_laws`: what braces stand for.
-/

namespace Relocation.Checked

open Text Glob

variable {c : Char} {cs text : List Char} {closed : Closed} {group : Group} {depth offset : Nat}

-- ---------------------------------------------------------------------------
-- Scanning bytes
-- ---------------------------------------------------------------------------

/-- Where the own commas of a group stand and where it ends. -/
structure Marks where
  commas : List Nat
  close : Nat
  deriving Repr, DecidableEq

namespace Marks

/-- The marks with a comma in front of the others. -/
def addComma (offset : Nat) (marks : Marks) : Marks :=
  { marks with commas := offset :: marks.commas }

/-- All the marks, in their order. -/
def all (marks : Marks) : List Nat := marks.commas ++ [marks.close]

end Marks

/-- Scans the bytes of a group from an offset on, while `depth` braces are open. -/
def scanGroup : (depth offset : Nat) → List UInt8 → Except Trap (Option Marks)
  | _, _, [] => return none
  | depth, offset, b :: rest =>
    if b = byteOf '\x7b' then scanGroup (depth + 1) (offset + 1) rest
    else if b = byteOf '\x7d' then do
      let depth ← minus depth 1
      if depth = 0 then return some ⟨[], offset⟩ else scanGroup depth (offset + 1) rest
    else if b = byteOf ',' ∧ depth = 1 then do
      let marks? ← scanGroup depth (offset + 1) rest
      return marks?.map (.addComma offset)
    else scanGroup depth (offset + 1) rest

/-- Those of some offsets in a text at which an opening brace stands. -/
def openingsAmong (text : List Char) : List Nat → Except Trap (List Nat)
  | [] => return []
  | offset :: others => do
    let byte ← nth (bytes text) offset
    let openings ← openingsAmong text others
    return if byte = byteOf '\x7b' then offset :: openings else openings

/-- The first of some opening braces that starts a group with a comma of its own, and the marks of
this group. -/
def firstMarks (text : List Char) : List Nat → Except Trap (Option (Nat × Marks))
  | [] => return none
  | opening :: others => do
    match ← scanGroup 0 opening ((bytes text).drop opening) with
    | none => firstMarks text others
    | some marks =>
      if marks.commas = [] then firstMarks text others else return some (opening, marks)

/-- The slices of a text between offsets that follow each other, without the byte that the first of
two stands at. -/
def slicesBetween (text : List Char) : List Nat → Except Trap (List (List Char))
  | low :: high :: bounds => do
    let part ← slice text (low + 1) high
    let others ← slicesBetween text (high :: bounds)
    return part :: others
  | _ => return []

/-- The alternatives that a text stands for, as far as the recursion goes no deeper than the given
number of calls. -/
def alternativesWithin : Nat → List Char → Except Trap (Option (List (List Char)))
  | 0, _ => return none
  | calls + 1, text => do
    let openings ← openingsAmong text (List.range (bytes text).length)
    match ← firstMarks text openings with
    | none => return some [text]
    | some (opening, marks) => do
      let front ← slice text 0 opening
      let behind ← sliceFrom text (marks.close + 1)
      let parts ← slicesBetween text (opening :: marks.all)
      let found ← parts.mapM fun part => alternativesWithin calls (front ++ part ++ behind)
      return (found.mapM id).map List.flatten

-- ---------------------------------------------------------------------------
-- Marks of a group
-- ---------------------------------------------------------------------------

/-- The marks of a group, given its parts and where the first of them starts. -/
def marksOf (offset : Nat) (first : List Char) : List (List Char) → Marks
  | [] => ⟨[], offset + byteLength first⟩
  | second :: others =>
    (marksOf (offset + byteLength first + 1) second others).addComma (offset + byteLength first)

/-- The marks of a group that starts at an offset, behind its opening brace. -/
def marksFrom (offset : Nat) (closed : Closed) : Marks := marksOf offset closed.first closed.others

theorem marksFrom_cons (offset : Nat) (c : Char) (closed : Closed) :
    marksFrom offset (closed.cons c) = marksFrom (offset + c.utf8Size) closed := by
  show marksOf offset (c :: closed.first) closed.others
    = marksOf (offset + c.utf8Size) closed.first closed.others
  cases closed.others <;> simp only [marksOf, byteLength_cons, Nat.add_assoc]

theorem all_marksOf_cons (offset : Nat) (first second : List Char) (others : List (List Char)) :
    (marksOf offset first (second :: others)).all
      = (offset + byteLength first)
        :: (marksOf (offset + byteLength first + 1) second others).all := rfl

theorem commas_marksFrom_eq_nil_iff :
    (marksFrom offset closed).commas = [] ↔ closed.others = [] := by
  rw [marksFrom]
  cases closed.others with
  | nil => simp [marksOf]
  | cons second others => simp [marksOf, Marks.addComma]

/-- Bytes that are none of the scan's own are passed over. -/
theorem scanGroup_append {front : List UInt8}
    (h : ∀ b ∈ front, b ≠ byteOf '\x7b' ∧ b ≠ byteOf '\x7d' ∧ b ≠ byteOf ',')
    (depth offset : Nat) (rest : List UInt8) :
    scanGroup depth offset (front ++ rest) = scanGroup depth (offset + front.length) rest := by
  induction front generalizing offset with
  | nil => rfl
  | cons b front ih =>
    obtain ⟨hOpen, hClose, hComma⟩ := h b List.mem_cons_self
    have hRest := ih (fun b hMem => h b (List.mem_cons_of_mem _ hMem)) (offset + 1)
    rw [List.cons_append, scanGroup, if_neg hOpen, if_neg hClose, if_neg (fun h => hComma h.1),
      hRest, List.length_cons]
    congr 1
    omega

/-- A character that is none of the scan's own is passed over with all its bytes. -/
theorem scanGroup_char (hOpen : c ≠ '\x7b') (hClose : c ≠ '\x7d') (hComma : c ≠ ',')
    (depth offset : Nat) (rest : List UInt8) :
    scanGroup depth offset (String.utf8EncodeChar c ++ rest)
      = scanGroup depth (offset + c.utf8Size) rest := by
  have hBytes : ∀ b ∈ String.utf8EncodeChar c,
      b ≠ byteOf '\x7b' ∧ b ≠ byteOf '\x7d' ∧ b ≠ byteOf ',' := by
    intro b hMem
    refine ⟨?_, ?_, ?_⟩
    · rintro rfl
      exact hOpen (eq_of_byteOf_mem (by decide) hMem)
    · rintro rfl
      exact hClose (eq_of_byteOf_mem (by decide) hMem)
    · rintro rfl
      exact hComma (eq_of_byteOf_mem (by decide) hMem)
  rw [scanGroup_append hBytes, String.length_utf8EncodeChar]

theorem map_marksFrom_cons (offset : Nat) (c : Char) (closed? : Option Closed) :
    (closed?.map (Closed.cons c)).map (marksFrom offset)
      = closed?.map (marksFrom (offset + c.utf8Size)) := by
  rw [Option.map_map]
  exact congrArg (fun f => closed?.map f) (funext fun closed => marksFrom_cons offset c closed)

/-- The scan of a group finds what reading the group finds. -/
theorem scanGroup_eq_ok (depth offset : Nat) (cs : List Char) :
    scanGroup (depth + 1) offset (bytes cs)
      = .ok ((closeGroup? depth cs).map (marksFrom offset)) := by
  induction cs generalizing depth offset with
  | nil => rfl
  | cons c cs ih =>
    rw [bytes_cons, closeGroup?.eq_def]
    dsimp only
    -- the three marks are one byte each; a character of more bytes holds none of them
    by_cases hClose : c = '\x7d'
    · subst hClose
      rw [if_pos rfl, encoding_of_lt (by decide), List.singleton_append, scanGroup,
        if_neg (by decide), if_pos rfl, minus_eq_ok (by omega), ok_bind, Nat.add_sub_cancel]
      cases depth with
      | zero => rfl
      | succ depth =>
        dsimp only
        rw [if_neg (by omega), ih, map_marksFrom_cons]
        rfl
    rw [if_neg hClose]
    by_cases hOpen : c = '\x7b'
    · subst hOpen
      rw [if_pos rfl, encoding_of_lt (by decide), List.singleton_append, scanGroup, if_pos rfl, ih,
        map_marksFrom_cons]
      rfl
    rw [if_neg hOpen]
    by_cases hComma : c = ','
    · subst hComma
      rw [encoding_of_lt (by decide), List.singleton_append, scanGroup, if_neg (by decide),
        if_neg (by decide)]
      by_cases hDepth : depth = 0
      · subst hDepth
        rw [if_pos ⟨rfl, rfl⟩, if_pos ⟨rfl, rfl⟩, ih, ok_bind, Option.map_map, Option.map_map]
        rfl
      · rw [if_neg (fun h => hDepth (by omega)), if_neg (fun h => hDepth h.2), ih,
          map_marksFrom_cons]
        rfl
    · rw [if_neg (fun h => hComma h.1), scanGroup_char hOpen hClose hComma, ih, map_marksFrom_cons]

-- ---------------------------------------------------------------------------
-- The first group
-- ---------------------------------------------------------------------------

/-- Where the opening braces stand in a text that starts at an offset. -/
def openingsFrom (offset : Nat) : List Char → List Nat
  | [] => []
  | c :: cs =>
    if c = '\x7b' then offset :: openingsFrom (offset + c.utf8Size) cs
    else openingsFrom (offset + c.utf8Size) cs

/-- The opening braces among some offsets are found. -/
theorem openingsAmong_eq_ok {offsets : List Nat}
    (h : ∀ i ∈ offsets, i < (bytes text).length) :
    openingsAmong text offsets
      = .ok (offsets.filter fun i => (bytes text)[i]? == some (byteOf '\x7b')) := by
  induction offsets with
  | nil => rfl
  | cons i others ih =>
    have hByte := List.getElem?_eq_getElem (h i List.mem_cons_self)
    rw [openingsAmong, nth_eq_ok hByte, ok_bind, ih fun j hMem => h j (List.mem_cons_of_mem _ hMem),
      ok_bind, List.filter_cons, hByte]
    simp only [Option.some_beq_some, beq_iff_eq]
    rfl

/-- Behind a front part, the opening braces are those of the characters. -/
theorem filter_openings (front cs : List Char) :
    (List.range' (byteLength front) (byteLength cs)).filter
        (fun i => (bytes (front ++ cs))[i]? == some (byteOf '\x7b'))
      = openingsFrom (byteLength front) cs := by
  induction cs generalizing front with
  | nil => rfl
  | cons c cs ih =>
    have hRest := ih (front ++ [c])
    have hLength : byteLength (front ++ [c]) = byteLength front + c.utf8Size := by simp
    rw [List.append_assoc, List.singleton_append, hLength] at hRest
    -- the bytes of the character come first, and only a brace has the byte of a brace
    have hHere : (List.range' (byteLength front) c.utf8Size).filter
          (fun i => (bytes (front ++ c :: cs))[i]? == some (byteOf '\x7b'))
        = if c = '\x7b' then [byteLength front] else [] := by
      split
      · rename_i hOpen
        subst hOpen
        have hByte : (bytes (front ++ '\x7b' :: cs))[byteLength front]? = some (byteOf '\x7b') :=
          (getElem?_bytes_iff_charAt (by decide)).2 ⟨front, cs, rfl, rfl⟩
        show (List.range' (byteLength front) 1).filter _ = _
        rw [List.range'_one, List.filter_cons, hByte]
        rfl
      · rename_i hOpen
        rw [List.filter_eq_nil_iff]
        intro i hMem hByte
        obtain ⟨hLow, hHigh⟩ := List.mem_range'_1.1 hMem
        rw [beq_iff_eq, bytes_append, List.getElem?_append_right (by simpa using hLow),
          length_bytes, bytes_cons,
          List.getElem?_append_left (by rw [String.length_utf8EncodeChar]; omega)] at hByte
        exact hOpen (eq_of_byteOf_mem (by decide) (List.mem_of_getElem? hByte))
    rw [byteLength_cons, ← List.range'_append_1, List.filter_append, hRest, hHere, openingsFrom]
    split <;> rfl

/-- The scan at an opening brace finds the group that starts there. -/
theorem scanGroup_brace (front cs : List Char) :
    scanGroup 0 (byteLength front) ((bytes (front ++ '\x7b' :: cs)).drop (byteLength front))
      = .ok ((closeGroup? 0 cs).map (marksFrom (byteLength front + 1))) := by
  have hBytes : (bytes (front ++ '\x7b' :: cs)).drop (byteLength front)
      = byteOf '\x7b' :: bytes cs := by
    rw [bytes_append, ← length_bytes, List.drop_left, bytes_cons, encoding_of_lt (by decide)]
    rfl
  rw [hBytes, scanGroup, if_pos rfl, Nat.zero_add, ← scanGroup_eq_ok]

/-- The search for the first group finds it, with its marks. -/
theorem firstMarks_eq_ok (front cs : List Char) :
    firstMarks (front ++ cs) (openingsFrom (byteLength front) cs)
      = .ok ((firstGroup? cs).map fun group =>
          let opening := byteLength front + byteLength group.before
          (opening, marksFrom (opening + 1) group.closed)) := by
  induction cs generalizing front with
  | nil => rfl
  | cons c cs ih =>
    have hRest := ih (front ++ [c])
    have hLength : byteLength (front ++ [c]) = byteLength front + c.utf8Size := by simp
    rw [List.append_assoc, List.singleton_append, hLength] at hRest
    have hLater : (((firstGroup? cs).map
          fun group => { group with before := c :: group.before }).map fun group =>
            let opening := byteLength front + byteLength group.before
            (opening, marksFrom (opening + 1) group.closed))
        = (firstGroup? cs).map fun group =>
            let opening := byteLength front + c.utf8Size + byteLength group.before
            (opening, marksFrom (opening + 1) group.closed) := by
      rw [Option.map_map]
      congr 1
      funext group
      simp only [Function.comp, byteLength_cons, Nat.add_assoc]
    -- the search behind the character has found its marks already, counted from the front
    rw [firstGroup?, openingsFrom]
    by_cases hOpen : c = '\x7b'
    · subst hOpen
      rw [if_pos rfl, if_pos rfl, firstMarks, scanGroup_brace, ok_bind, groupBehindBrace?]
      -- a group without a comma of its own is passed over like one that is never closed
      cases hClosed : closeGroup? 0 cs with
      | none =>
        show firstMarks (front ++ '\x7b' :: cs) (openingsFrom (byteLength front + 1) cs) = _
        rw [← hLater] at hRest
        exact hRest
      | some closed =>
        dsimp only [Option.map_some]
        by_cases hOthers : closed.others = []
        · rw [if_pos (commas_marksFrom_eq_nil_iff.2 hOthers), if_pos hOthers, hRest, ← hLater]
        · rw [if_neg fun h => hOthers (commas_marksFrom_eq_nil_iff.1 h), if_neg hOthers]
          rfl
    · rw [if_neg hOpen, if_neg hOpen, hRest]
      dsimp only
      rw [hLater]

-- ---------------------------------------------------------------------------
-- Alternatives
-- ---------------------------------------------------------------------------

/-- The slices between the marks of a group are its parts. -/
theorem slicesBetween_eq_ok {front rest first : List Char} {low : Nat}
    {others : List (List Char)} (hText : text = front ++ (joined ',' (first :: others) ++ rest))
    (hLow : byteLength front = low + 1) :
    slicesBetween text (low :: (marksOf (low + 1) first others).all) = .ok (first :: others) := by
  induction others generalizing front low first with
  | nil =>
    show slicesBetween text [low, low + 1 + byteLength first] = _
    rw [slicesBetween, slice_eq_ok (b := first) hText hLow rfl]
    rfl
  | cons second others ih =>
    have hSplit : text = front ++ (first ++ ',' :: (joined ',' (second :: others) ++ rest)) := by
      rw [hText, joined_cons _ _ (List.cons_ne_nil second others), List.append_assoc,
        List.cons_append]
    have hText' : text
        = (front ++ (first ++ [','])) ++ (joined ',' (second :: others) ++ rest) := by
      rw [hSplit]
      simp only [List.append_assoc, List.singleton_append]
    have hLow' : byteLength (front ++ (first ++ [','])) = low + 1 + byteLength first + 1 := by
      rw [byteLength_append, byteLength_append, hLow]
      exact (Nat.add_assoc ..).symm
    have hRest := ih hText' hLow'
    rw [all_marksOf_cons, slicesBetween, slice_eq_ok (b := first) hSplit hLow rfl, ok_bind, hRest]
    rfl

theorem close_marksOf (offset : Nat) (first : List Char) (others : List (List Char)) :
    (marksOf offset first others).close = offset + byteLength (joined ',' (first :: others)) := by
  induction others generalizing offset first with
  | nil => rfl
  | cons second others ih =>
    have hComma : ','.utf8Size = 1 := rfl
    show (marksOf (offset + byteLength first + 1) second others).close
      = offset + byteLength (first ++ ',' :: joined ',' (second :: others))
    rw [ih, byteLength_append, byteLength_cons, hComma]
    omega

/-- What stands before the first group of a text, its parts and what stands behind it are slices of
the text. -/
theorem slices_firstGroup (h : firstGroup? cs = some group) :
    let opening := byteLength group.before
    let marks := marksFrom (opening + 1) group.closed
    slice cs 0 opening = .ok group.before ∧
      sliceFrom cs (marks.close + 1) = .ok group.closed.after ∧
      slicesBetween cs (opening :: marks.all) = .ok group.closed.parts := by
  intro opening marks
  have hText : cs = group.before ++ '\x7b' :: (joined ',' group.closed.parts
      ++ '\x7d' :: group.closed.after) := by
    rw [eq_of_firstGroup? h]
    simp only [List.append_assoc, List.cons_append]
  refine ⟨slice_eq_ok (a := []) hText rfl (Nat.zero_add _), ?_, ?_⟩
  · have hFront : cs = (group.before ++ '\x7b' :: (joined ',' group.closed.parts ++ ['\x7d']))
        ++ group.closed.after := by
      rw [hText]
      simp only [List.append_assoc, List.cons_append, List.nil_append]
    refine sliceFrom_eq_ok hFront ?_
    have hClose : marks.close = opening + 1 + byteLength (joined ',' group.closed.parts) :=
      close_marksOf ..
    have hSizes : '\x7b'.utf8Size = 1 ∧ byteLength ['\x7d'] = 1 := ⟨rfl, rfl⟩
    rw [byteLength_append, byteLength_cons, byteLength_append, hSizes.1, hSizes.2, hClose]
    omega
  · have hParts : cs = (group.before ++ ['\x7b'])
        ++ (joined ',' group.closed.parts ++ '\x7d' :: group.closed.after) := by
      rw [hText, List.append_assoc, List.singleton_append]
    exact slicesBetween_eq_ok hParts (byteLength_append ..)

theorem mapM_eq_ok {α β : Type} {f : α → Except Trap β} {g : α → β} {list : List α}
    (h : ∀ a ∈ list, f a = .ok (g a)) : list.mapM f = .ok (list.map g) := by
  induction list with
  | nil => rfl
  | cons a list ih =>
    rw [List.mapM_cons, h a List.mem_cons_self, ok_bind,
      ih fun b hMem => h b (List.mem_cons_of_mem _ hMem)]
    rfl

/-- The alternatives are found, and the recursion goes no deeper than the text is long. -/
theorem alternativesWithin_eq_ok {calls : Nat} (h : cs.length < calls) :
    alternativesWithin calls cs = .ok (some (alternatives cs)) := by
  induction calls generalizing cs with
  | zero => omega
  | succ calls ih =>
    have hOpenings : openingsAmong cs (List.range (bytes cs).length) = .ok (openingsFrom 0 cs) := by
      rw [openingsAmong_eq_ok fun i hMem => List.mem_range.1 hMem, List.range_eq_range',
        length_bytes]
      exact congrArg Except.ok (filter_openings [] cs)
    have hMarks := firstMarks_eq_ok [] cs
    rw [List.nil_append, byteLength_nil] at hMarks
    rw [alternativesWithin, hOpenings, ok_bind, hMarks, ok_bind]
    cases hGroup : firstGroup? cs with
    | none =>
      rw [alternatives_of_none hGroup]
      rfl
    | some group =>
      obtain ⟨hFront, hBehind, hParts⟩ := slices_firstGroup hGroup
      have hFound : group.closed.parts.mapM
            (fun part => alternativesWithin calls (group.before ++ part ++ group.closed.after))
          = .ok (group.closed.parts.map fun part => some (alternatives (group.withPart part))) := by
        refine mapM_eq_ok fun part hMem => ih ?_
        have hLess := length_lt_of_firstGroup? hGroup hMem
        rw [Group.withPart] at hLess
        omega
      dsimp only [Option.map_some]
      rw [Nat.zero_add, hFront, ok_bind, hBehind, ok_bind, hParts, ok_bind, hFound, ok_bind,
        alternatives_of_some hGroup, List.mapM_map]
      show pure (Option.map List.flatten (group.closed.parts.mapM (m := Option) fun part =>
        pure (alternatives (group.withPart part)))) = _
      rw [List.mapM_pure]
      rfl

-- ---------------------------------------------------------------------------
-- What braces stand for
-- ---------------------------------------------------------------------------

/-- **Laws of alternatives.** If each brace of a text is closed in it, the alternatives of the
text with more behind it are those of the text, each with those of what is behind, the front
varying most slowly. The alternatives of a group of balanced parts without commas of their own are
those of its parts, one part after the other. An alternative stands for itself.

The last law is told of the search as it is made on bytes, with operations that fail where a text
cannot be cut and where a depth would fall below zero: it succeeds, in at most one more call than
the text is long, and finds the alternatives. The text is arbitrary. -/
theorem alternatives_laws (cs : List Char) :
    (EachClosed cs → ∀ more, alternatives (cs ++ more)
        = (alternatives cs).flatMap fun front => (alternatives more).map (front ++ ·)) ∧
      (∀ parts : List (List Char), 2 ≤ parts.length → (∀ part ∈ parts, IsPart 0 part) →
        alternatives ('\x7b' :: joined ',' parts ++ ['\x7d']) = parts.flatMap alternatives) ∧
      (∀ result ∈ alternatives cs, alternatives result = [result]) ∧
      ∀ calls, cs.length < calls → alternativesWithin calls cs = .ok (some (alternatives cs)) :=
  ⟨fun h more => alternatives_append h more, fun _ hMany h => alternatives_group hMany h,
    fun _ h => alternatives_of_mem h, fun _ h => alternativesWithin_eq_ok h⟩

/-- Inner braces, an empty part, a brace that closes nothing and one that is never closed. -/
theorem alternatives_laws_nested :
    let cs := "\x7ba,b\x7bc,d\x7d\x7d\x7d".toList
    let more := "\x7b\x7b,é\x7d".toList
    let parts := ["a".toList, "b\x7bc,d\x7d".toList, []]
    let result := "bd\x7d".toList
    (EachClosed cs ∧ alternatives (cs ++ more)
        = (alternatives cs).flatMap fun front => (alternatives more).map (front ++ ·)) ∧
      (2 ≤ parts.length ∧ (∀ part ∈ parts, IsPart 0 part) ∧
        alternatives ('\x7b' :: joined ',' parts ++ ['\x7d']) = parts.flatMap alternatives) ∧
      (result ∈ alternatives cs ∧ alternatives result = [result]) ∧
      more.length < 6 ∧ alternativesWithin 6 more = .ok (some (alternatives more)) := by
  have hClosed : EachClosed "\x7ba,b\x7bc,d\x7d\x7d\x7d".toList := by decide
  have hParts : ∀ part ∈ ["a".toList, "b\x7bc,d\x7d".toList, []], IsPart 0 part := by decide
  have hMem : "bd\x7d".toList ∈ alternatives "\x7ba,b\x7bc,d\x7d\x7d\x7d".toList := by
    have hAll : alternatives "\x7ba,b\x7bc,d\x7d\x7d\x7d".toList
        = ["a\x7d".toList, "bc\x7d".toList, "bd\x7d".toList] := by cbv
    rw [hAll]
    exact .tail _ (.tail _ (.head _))
  intro cs more parts result
  obtain ⟨hFront, hGroups, hEach, -⟩ := alternatives_laws cs
  obtain ⟨-, -, -, hFound⟩ := alternatives_laws more
  exact ⟨⟨hClosed, hFront hClosed more⟩,
    ⟨Nat.le_succ 2, hParts, hGroups parts (Nat.le_succ 2) hParts⟩, ⟨hMem, hEach result hMem⟩,
    Nat.lt_succ_self 5, hFound 6 (Nat.lt_succ_self 5)⟩

end Relocation.Checked

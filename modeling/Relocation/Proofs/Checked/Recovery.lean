import Mathlib.Data.List.TakeWhile
import Relocation.Proofs.Blanked
import Relocation.Proofs.Checked.Text

/-!
# Recovery without failures

The recovery from faults, made of operations that can fail: the search for a binding clause, the
search for a line, the blanking and the attempts. Each of them succeeds, for every text and every
offset, and gives what the total definition gives. The offsets that it slices at are found by
searching the text, so they fall between characters; and an offset that falls inside one, as a
parser may report it, is asked about before it is used.

## Results

* `clauseAt_eq_ok`: the search for a binding clause;
* `lineAt_eq_ok`: the search for a line that is not blank;
* `blank_eq_ok`: blanking what was found;
* `recover_eq_ok`: the recovery as a whole.
-/

namespace Relocation.Checked

open Text

variable {text : List Char} {fault : Nat}

-- ---------------------------------------------------------------------------
-- Bytes beside a word
-- ---------------------------------------------------------------------------

/-- Whether the byte continues an ASCII identifier. -/
def isWordByte (b : UInt8) : Bool :=
  (0x30 ≤ b && b ≤ 0x39) || (0x41 ≤ b && b ≤ 0x5a) || (0x61 ≤ b && b ≤ 0x7a)
    || b == byteOf '_' || b == byteOf '$'

/-- Whether a binding clause may start with the byte. -/
def isOpeningByte (b : UInt8) : Bool :=
  [' ', '\t', '\n', '\x0c', '\r', '{', '*'].any fun c => b == byteOf c

/-- Whether the byte makes another sign of an equality sign in front of it. -/
def isSignByte (b : UInt8) : Bool := b == byteOf '=' || b == byteOf '>'

theorem reads_isWordByte : Reads isWordByte continuesWord := by
  refine .of_ascii (by decide +kernel) (by decide +kernel) fun c hc => ?_
  by_contra hWord
  have hBounds := bounds_of_continuesWord (Bool.not_eq_false _ ▸ hWord)
  omega

theorem reads_isOpeningByte : Reads isOpeningByte startsClause := by
  refine .of_ascii (by decide +kernel) (by decide +kernel) fun c hc => ?_
  have hNe {d : Char} (hd : d.toNat < 0x80) : c ≠ d := by
    rintro rfl
    omega
  simp [startsClause, isAsciiBlank, hNe]

theorem reads_isSignByte : Reads isSignByte fun c => c == '=' || c == '>' := by
  refine .of_ascii (by decide +kernel) (by decide +kernel) fun c hc => ?_
  have hNe {d : Char} (hd : d.toNat < 0x80) : c ≠ d := by
    rintro rfl
    omega
  simp [hNe]

-- ---------------------------------------------------------------------------
-- Binding clauses
-- ---------------------------------------------------------------------------

/-- Whether a word goes on at the offset, seen from the byte before it. -/
def goesOnAt (text : List Char) (offset : Nat) : Except Trap Bool :=
  if 0 < offset then do
    let last ← minus offset 1
    let byte ← nth (bytes text) last
    return isWordByte byte
  else return false

/-- The blanking for the clause between `import` at `start` and the equality sign at `sign`. -/
def clauseUpTo (text : List Char) (fault start sign : Nat) : Except Trap (Option Blanking) :=
  if (bytes text)[sign + 1]?.any isSignByte then return none
  else do
    let clause ← slice text (start + byteLength "import".toList) sign
    if (trim clause).isEmpty
      || clause.any fun c => [';', '\'', '"', '\x60', '(', ')'].contains c then
      return none
    else do
      let rest ← sliceFrom text (sign + 1)
      let blanks ← minus (byteLength rest) (byteLength (dropBlank rest))
      let call := sign + 1 + blanks
      if call < fault then return none
      else do
        let callee ← sliceFrom text call
        match "require".toList.isPrefixOf? callee with
        | none => return none
        | some behind =>
          if (dropBlank behind).head? = some '(' then return some ⟨start, sign + 1, some call⟩
          else return none

/-- The binding clause around a fault. -/
def clauseAt (text : List Char) (fault : Nat) : Except Trap (Option Blanking) :=
  match (frontTo? text fault).bind (findLast? "import".toList) with
  | none => return none
  | some start => do
    let goesOn ← goesOnAt text start
    let behind := start + byteLength "import".toList
    if goesOn then return none
    else if !(bytes text)[behind]?.any isOpeningByte then return none
    else do
      let rest ← sliceFrom text behind
      match find? ['='] rest with
      | none => return none
      | some length => clauseUpTo text fault start (behind + length)

theorem goesOnAt_append (a b : List Char) :
    goesOnAt (a ++ b) (byteLength a) = .ok (a.getLast?.any continuesWord) := by
  unfold goesOnAt
  by_cases hNe : a = []
  · subst hNe
    rfl
  · have hPos : 0 < byteLength a := by
      by_contra hZero
      exact hNe (eq_nil_of_byteLength_eq_zero (by omega))
    obtain ⟨byte, hByte, hTest⟩ := reads_isWordByte.byteBefore hNe b
    rw [if_pos hPos, minus_eq_ok (by omega), ok_bind, nth_eq_ok hByte, ok_bind, hTest]
    rfl

theorem isEmpty_trim (cs : List Char) : (trim cs).isEmpty = allBlank cs := by
  rw [Bool.eq_iff_iff, List.isEmpty_iff, allBlank, List.all_eq_true, trim, List.reverse_eq_nil_iff,
    dropBlank, List.dropWhile_eq_nil_iff]
  constructor
  · intro hRest c hc
    rw [← List.takeWhile_append_dropWhile (p := isBlank) (l := cs), List.mem_append] at hc
    rcases hc with hc | hc
    · exact List.mem_takeWhile_imp hc
    · exact hRest c (List.mem_reverse.2 hc)
  · intro hAll c hc
    exact hAll c ((List.dropWhile_sublist _).subset (List.mem_reverse.1 hc))

theorem isClause_eq (clause : List Char) :
    ((trim clause).isEmpty || clause.any fun c => [';', '\'', '"', '\x60', '(', ')'].contains c)
      = !isClause clause := by
  rw [isEmpty_trim, isClause, Bool.not_and, Bool.not_not, List.all_eq_not_any_not, Bool.not_not]
  congr 2
  funext c
  simp [Bool.or_comm, Bool.or_assoc, Bool.or_left_comm]

/-- The blanks that a text starts with are what is missing from it without them. -/
theorem minus_dropBlank (cs : List Char) :
    minus (byteLength cs) (byteLength (dropBlank cs))
      = .ok (byteLength (cs.takeWhile isBlank)) := by
  have hParts : cs.takeWhile isBlank ++ dropBlank cs = cs := List.takeWhile_append_dropWhile
  have hLength := congrArg byteLength hParts
  rw [byteLength_append] at hLength
  rw [minus_eq_ok (by omega), ← hLength, Nat.add_sub_cancel]

/-- From the equality sign on the search for a clause succeeds. -/
theorem clauseUpTo_append (front clause value : List Char) (fault : Nat) :
    let start := byteLength front
    let sign := start + byteLength "import".toList + byteLength clause
    let call := sign + 1 + byteLength (value.takeWhile isBlank)
    clauseUpTo (front ++ ("import".toList ++ (clause ++ '=' :: value))) fault start sign
      = .ok (if value.head?.any fun c => c == '=' || c == '>' then none
          else if !isClause clause then none
          else if call < fault then none
          else (afterCallee? (dropBlank value)).map fun _ => ⟨start, sign + 1, some call⟩) := by
  intro start sign call
  generalize hText : front ++ ("import".toList ++ (clause ++ '=' :: value)) = text
  -- the offsets that are computed fall between the parts of the text
  have hSign : '='.utf8Size = 1 := rfl
  have hValue : value.takeWhile isBlank ++ dropBlank value = value :=
    List.takeWhile_append_dropWhile
  have hFront : byteLength (front ++ ("import".toList ++ (clause ++ ['=']))) = sign + 1 := by
    simp only [byteLength_append, byteLength_cons, byteLength_nil, hSign, sign, start]
    omega
  have hBehind : text = (front ++ ("import".toList ++ (clause ++ ['=']))) ++ value := by
    rw [← hText]
    simp only [List.append_assoc, List.singleton_append]
  -- so each look at the text succeeds, and gives one of these parts
  have hNext : (bytes text)[sign + 1]?.any isSignByte
      = value.head?.any fun c => c == '=' || c == '>' :=
    reads_isSignByte.byteAt hBehind hFront
  have hClause : slice text (start + byteLength "import".toList) sign = .ok clause :=
    slice_eq_ok (a := front ++ "import".toList) (c := '=' :: value)
      (by rw [← hText, List.append_assoc]) (byteLength_append _ _) rfl
  have hRest : sliceFrom text (sign + 1) = .ok value := sliceFrom_eq_ok hBehind hFront
  have hCallee : sliceFrom text (sign + 1 + byteLength (value.takeWhile isBlank))
      = .ok (dropBlank value) := by
    refine sliceFrom_eq_ok (a := (front ++ ("import".toList ++ (clause ++ ['='])))
      ++ value.takeWhile isBlank) ?_ (by rw [byteLength_append, hFront])
    rw [List.append_assoc, hValue, hBehind]
  -- with them the tests are those of the definition, in the same order
  unfold clauseUpTo
  rw [hNext]
  simp only [hClause, hRest, minus_dropBlank, hCallee, isClause_eq, ok_bind]
  split
  · rfl
  split
  · rfl
  split
  · rfl
  unfold afterCallee?
  cases "require".toList.isPrefixOf? (dropBlank value) with
  | none => rfl
  | some behind =>
    dsimp only
    split <;> rfl

/-- The search for a binding clause succeeds. -/
theorem clauseAt_eq_ok (text : List Char) (fault : Nat) :
    clauseAt text fault = .ok (bindingClauseAt? text fault) := by
  unfold clauseAt bindingClauseAt? frontTo? findLast?
  -- each search that succeeds cuts the text once more; where one fails, so do both sides
  cases hCut : cutAt? text fault with
  | none => rfl
  | some parts =>
    obtain ⟨before, after⟩ := parts
    obtain ⟨rfl, -⟩ := cutAt?_eq_some_iff.1 hCut
    simp only [Option.map_some, Option.bind_some, Option.bind_eq_bind]
    cases hImport : splitAtLast? "import".toList before with
    | none => rfl
    | some parts =>
      obtain ⟨front, inside⟩ := parts
      obtain rfl := eq_append_of_splitAtLast? hImport
      have hText : front ++ "import".toList ++ inside ++ after
          = front ++ ("import".toList ++ (inside ++ after)) := by
        simp only [List.append_assoc]
      have hFront : byteLength (front ++ "import".toList)
          = byteLength front + byteLength "import".toList := byteLength_append _ _
      simp only [Option.map_some, Option.bind_some, Option.bind_none]
      rw [hText, goesOnAt_append, ok_bind, ← List.append_assoc front,
        reads_isOpeningByte.byteAt rfl hFront, sliceFrom_eq_ok rfl hFront, ok_bind]
      split
      · rfl
      split
      · rfl
      unfold find?
      cases hSign : splitAtFirst? ['='] (inside ++ after) with
      | none => rfl
      | some parts =>
        obtain ⟨clause, value⟩ := parts
        have hBehind : inside ++ after = clause ++ '=' :: value := by
          rw [eq_append_of_splitAtFirst? hSign, List.append_assoc, List.singleton_append]
        have hClause := clauseUpTo_append front clause value fault
        rw [List.append_assoc, hBehind, Option.map_some, Option.bind_some]
        refine hClause.trans (congrArg Except.ok ?_)
        rw [Option.map_eq_bind]
        rfl

-- ---------------------------------------------------------------------------
-- Lines
-- ---------------------------------------------------------------------------

/-- Where the line starts that a front part of a text ends in. -/
def lineStart (before : List Char) : Nat := ((findLast? ['\n'] before).map (· + 1)).getD 0

theorem lineStart_of_none {before : List Char} (h : splitAtLast? ['\n'] before = none) :
    lineStart before = 0 := by
  rw [lineStart, findLast?, h]
  rfl

theorem lineStart_of_some {before above head : List Char}
    (h : splitAtLast? ['\n'] before = some (above, head)) :
    lineStart before = byteLength above + 1 := by
  rw [lineStart, findLast?, h]
  rfl

/-- A line does not start behind the front part that it is the last line of. -/
theorem lineStart_le (before : List Char) : lineStart before ≤ byteLength before := by
  cases hSplit : splitAtLast? ['\n'] before with
  | none =>
    rw [lineStart_of_none hSplit]
    exact Nat.zero_le _
  | some parts =>
    have hFeed : byteLength ['\n'] = 1 := rfl
    rw [lineStart_of_some hSplit, eq_append_of_splitAtLast? hSplit, byteLength_append,
      byteLength_append]
    omega

/-- The line that starts at the offset, if it is not blank. -/
def lineFrom (text : List Char) (start : Nat) : Except Trap (Option Blanking) := do
  let behind ← sliceFrom text start
  let stop := ((find? ['\n'] behind).map (start + ·)).getD (byteLength text)
  let line ← slice text start stop
  return if (trim line).isEmpty then none else some ⟨start, stop, none⟩

/-- The line that holds the offset, or the next one above it that is not blank. -/
def lineAt (text : List Char) (offset : Nat) : Except Trap (Option Blanking) :=
  match _hBefore : frontTo? text offset with
  | none => return none
  | some before => do
    match ← lineFrom text (lineStart before) with
    | some line => return some line
    | none =>
      if lineStart before = 0 then return none
      else
        match _hAbove : minus (lineStart before) 1 with
        | .error trap => .error trap
        | .ok above => lineAt text above
termination_by offset
decreasing_by
  obtain ⟨⟨front, back⟩, hCut, rfl⟩ := Option.map_eq_some_iff.1 _hBefore
  obtain ⟨-, hFront⟩ := cutAt?_eq_some_iff.1 hCut
  have hStart := lineStart_le front
  have hMinus := le_of_minus_eq_ok _hAbove
  dsimp only at hMinus
  omega

theorem takeWhile_append_lineFeed {line : List Char} (h : '\n' ∉ line) (rest : List Char) :
    (line ++ rest).takeWhile (· != '\n') = line ++ rest.takeWhile (· != '\n') := by
  refine List.takeWhile_append_of_pos fun c hc => ?_
  rw [bne_iff_ne]
  rintro rfl
  exact h hc

/-- The end of the first line is found by its line feed, or else it is the end of the text. -/
theorem getD_find?_lineFeed (start : Nat) (cs : List Char) :
    ((find? ['\n'] cs).map (start + ·)).getD (start + byteLength cs)
      = start + byteLength (cs.takeWhile (· != '\n')) := by
  unfold find?
  cases hSplit : splitAtFirst? ['\n'] cs with
  | none =>
    have hWhole := takeWhile_append_lineFeed (not_mem_of_splitAtFirst?_eq_none hSplit) []
    rw [List.append_nil, List.takeWhile_nil, List.append_nil] at hWhole
    rw [hWhole]
    rfl
  | some parts =>
    obtain ⟨line, rest⟩ := parts
    rw [eq_append_of_splitAtFirst? hSplit, List.append_assoc,
      takeWhile_append_lineFeed ((splitAtFirst?_singleton_iff.1 hSplit).2), List.singleton_append,
      List.takeWhile_cons_of_neg (by decide), List.append_nil]
    rfl

/-- The search in a line succeeds, if the line starts behind a part that the text can be cut at. -/
theorem lineFrom_append (kept : List Char) {head after after' : List Char} (hHead : '\n' ∉ head)
    (hAfter : after.takeWhile (· != '\n') = after'.takeWhile (· != '\n')) :
    let line := head ++ after'.takeWhile (· != '\n')
    lineFrom (kept ++ (head ++ after)) (byteLength kept)
      = .ok (if allBlank line then none
          else some ⟨byteLength kept, byteLength kept + byteLength line, none⟩) := by
  intro line
  have hWhile : (head ++ after).takeWhile (· != '\n') = line := by
    rw [takeWhile_append_lineFeed hHead, hAfter]
  have hLine : line ++ (head ++ after).dropWhile (· != '\n') = head ++ after := by
    rw [← hWhile]
    exact List.takeWhile_append_dropWhile
  have hSlice : slice (kept ++ (head ++ after)) (byteLength kept)
      (byteLength kept + byteLength line) = .ok line :=
    slice_eq_ok (c := (head ++ after).dropWhile (· != '\n')) (by rw [hLine]) rfl rfl
  rw [lineFrom, sliceFrom_eq_ok rfl rfl, ok_bind, byteLength_append, getD_find?_lineFeed, hWhile]
  show (do let line ← slice (kept ++ (head ++ after)) (byteLength kept)
                        (byteLength kept + byteLength line)
           return _) = _
  rw [hSlice, ok_bind, isEmpty_trim]
  rfl

/-- The search takes what the line in hand gives. If it gives nothing, the search goes on from the
line feed in front of the line, if there is one. -/
theorem lineAt_step {before after : List Char} {found : Option Blanking}
    (h : lineFrom (before ++ after) (lineStart before) = .ok found) :
    lineAt (before ++ after) (byteLength before)
      = if found = none ∧ lineStart before ≠ 0
        then lineAt (before ++ after) (lineStart before - 1) else .ok found := by
  have hFront : frontTo? (before ++ after) (byteLength before) = some before := by
    rw [frontTo?, cutAt?_append]
    rfl
  rw [lineAt]
  split
  · rename_i hNone
    rw [hFront] at hNone
    contradiction
  rename_i front hSome
  obtain rfl : before = front := Option.some.inj (hFront.symm.trans hSome)
  rw [h, ok_bind]
  cases found with
  | some line =>
    have hFound : ¬(some line = none ∧ lineStart before ≠ 0) := fun hNone => nomatch hNone.1
    rw [if_neg hFound]
    rfl
  | none =>
    dsimp only
    by_cases hZero : lineStart before = 0
    · rw [if_pos hZero, if_neg fun hNot => hNot.2 hZero]
      rfl
    rw [if_neg hZero, if_pos ⟨rfl, hZero⟩]
    have hMinus : minus (lineStart before) 1 = .ok (lineStart before - 1) :=
      minus_eq_ok (Nat.one_le_iff_ne_zero.2 hZero)
    split
    · rename_i hTrap
      rw [hMinus] at hTrap
      contradiction
    · rename_i above hAbove
      obtain rfl := Except.ok.inj (hMinus.symm.trans hAbove)
      rfl

/-- The search for a line succeeds. What is behind the line of the offset plays no part. -/
theorem lineAt_append {before after after' : List Char}
    (hAfter : after.takeWhile (· != '\n') = after'.takeWhile (· != '\n')) :
    lineAt (before ++ after) (byteLength before) = .ok (filledLine? before after') := by
  induction hLength : before.length using Nat.strongRecOn generalizing before after after' with
  | _ n ih =>
  subst hLength
  cases hSplit : splitAtLast? ['\n'] before with
  | some parts =>
    obtain ⟨above, head⟩ := parts
    have hStart := lineStart_of_some hSplit
    have hHead := not_mem_of_splitAtLast? hSplit
    have hAbove : byteLength (above ++ ['\n']) = byteLength above + 1 := byteLength_append _ _
    have hParts := eq_append_of_splitAtLast? hSplit
    have hFrom := lineFrom_append (above ++ ['\n']) hHead hAfter
    rw [← List.append_assoc, hAbove, ← hStart, ← hParts] at hFrom
    rw [lineAt_step hFrom, filledLine?_of_some hSplit]
    by_cases hBlank : allBlank (head ++ after'.takeWhile (· != '\n')) = true
    · -- the search goes on in front of the line feed
      have hText : before ++ after = above ++ '\n' :: (head ++ after) := by
        rw [hParts]
        simp only [List.append_assoc, List.cons_append, List.nil_append]
      have hShorter : above.length < before.length := by
        rw [hParts]
        simp only [List.length_append, List.length_cons, List.length_nil]
        omega
      rw [if_pos ⟨if_pos hBlank, by omega⟩, if_pos hBlank, hStart, Nat.add_sub_cancel, hText]
      exact ih above.length hShorter rfl rfl
    · rw [if_neg hBlank, if_neg fun hNone => Option.some_ne_none _ hNone.1, if_neg hBlank, hStart]
  | none =>
    have hStart := lineStart_of_none hSplit
    have hFrom := lineFrom_append [] (not_mem_of_splitAtLast?_eq_none hSplit) hAfter
    rw [List.nil_append, byteLength_nil, ← hStart] at hFrom
    rw [lineAt_step hFrom, if_neg fun hNot => hNot.2 hStart, filledLine?_of_none hSplit, hStart,
      Nat.zero_add]

/-- The search for a line succeeds. -/
theorem lineAt_eq_ok (text : List Char) (offset : Nat) :
    lineAt text offset = .ok (filledLineAt? text offset) := by
  unfold filledLineAt?
  split
  · rename_i before after hCut
    obtain ⟨rfl, rfl⟩ := cutAt?_eq_some_iff.1 hCut
    exact lineAt_append rfl
  · rename_i hCut
    have hFront : frontTo? text offset = none := by
      rw [frontTo?, hCut]
      rfl
    rw [lineAt]
    split
    · rfl
    · rename_i hSome
      rw [hFront] at hSome
      contradiction

-- ---------------------------------------------------------------------------
-- Blanking
-- ---------------------------------------------------------------------------

/-- What is blanked on account of a fault. -/
def blankingFor (text : List Char) (fault : Nat) : Except Trap (Option Blanking) := do
  match ← clauseAt text fault with
  | some blanking => return some blanking
  | none => lineAt text (min fault (byteLength text))

/-- What blanking puts in place of a byte. -/
def blankedByte (b : UInt8) : Char :=
  if b = byteOf '\n' ∨ b = byteOf '\r' then Char.ofNat b.toNat else ' '

/-- Blanks the text between two offsets. -/
def blank (text : List Char) (start stop : Nat) : Except Trap (List Char) := do
  let stretch ← slice text start stop
  replaceRange text start stop ((bytes stretch).map blankedByte)

theorem blankingFor_eq_ok (h : fault ≤ byteLength text) :
    blankingFor text fault = .ok (blankingFor? text fault) := by
  rw [blankingFor, clauseAt_eq_ok, ok_bind, Nat.min_eq_left h, lineAt_eq_ok, blankingFor?]
  cases bindingClauseAt? text fault <;> rfl

/-- Byte by byte a text is blanked as it is character by character. -/
theorem map_blankedByte (cs : List Char) : (bytes cs).map blankedByte = blanked cs := by
  induction cs with
  | nil => rfl
  | cons c cs ih =>
    rw [bytes_cons, List.map_append, ih, blanked]
    congr 1
    unfold blankedChar
    split
    · rename_i hBreak
      rcases hBreak with rfl | rfl <;> rfl
    · rename_i hBreak
      rw [List.eq_replicate_iff, List.length_map, String.length_utf8EncodeChar]
      refine ⟨rfl, fun d hd => ?_⟩
      obtain ⟨b, hb, rfl⟩ := List.mem_map.1 hd
      refine if_neg (not_or.2 ⟨?_, ?_⟩)
      · rintro rfl
        exact hBreak (.inl (eq_of_byteOf_mem (by decide) hb))
      · rintro rfl
        exact hBreak (.inr (eq_of_byteOf_mem (by decide) hb))

/-- Blanking what was found succeeds. -/
theorem blank_eq_ok {blanking : Blanking} (h : blankingFor? text fault = some blanking) :
    blank text blanking.start blanking.stop = .ok (blanking.apply text) := by
  obtain ⟨kept, stretch, back, hText, hStart, hStop, -⟩ := found_spec h
  rw [blank, slice_eq_ok hText hStart.symm (by omega), ok_bind, map_blankedByte,
    replaceRange_eq_ok hText hStart.symm (by omega), hText, Blanking.apply_append hStart hStop]

-- ---------------------------------------------------------------------------
-- Recovery
-- ---------------------------------------------------------------------------

variable {Tree : Type}

/-- Parses the text, with at most `blankings` blankings in between. -/
def recoverWithin (parse : List Char → Except Nat Tree) :
    (blankings : Nat) → Working → Except Trap (Option (Recovered Tree))
  | blankings, working =>
    match parse working.text with
    | .ok tree => return some ⟨tree, working⟩
    | .error fault =>
      match blankings with
      | 0 => return none
      | blankings + 1 => do
        match ← blankingFor working.text (min fault (byteLength working.text)) with
        | none => return none
        | some blanking => do
          let text ← blank working.text blanking.start blanking.stop
          recoverWithin parse blankings ⟨text, working.calls ++ blanking.call.toList⟩

theorem recoverWithin_eq_ok (parse : List Char → Except Nat Tree) (blankings : Nat)
    (working : Working) :
    recoverWithin parse blankings working
      = .ok (Relocation.recoverWithin parse blankings working) := by
  induction blankings generalizing working with
  | zero =>
    unfold recoverWithin Relocation.recoverWithin
    cases parse working.text <;> rfl
  | succ blankings ih =>
    unfold recoverWithin Relocation.recoverWithin
    cases parse working.text with
    | ok tree => rfl
    | error fault =>
      dsimp only
      rw [blankingFor_eq_ok (Nat.min_le_right _ _), ok_bind, Working.step?]
      cases hBlanking : blankingFor? working.text (min fault (byteLength working.text)) with
      | none => rfl
      | some blanking =>
        dsimp only
        rw [blank_eq_ok hBlanking, ok_bind, ih]
        rfl

/-- Recovery from faults succeeds, whatever the parser reports. -/
theorem recover_eq_ok (parse : List Char → Except Nat Tree) (source : List Char) :
    recoverWithin parse blankingLimit ⟨source, []⟩ = .ok (recover? parse source) :=
  recoverWithin_eq_ok parse blankingLimit ⟨source, []⟩

end Relocation.Checked

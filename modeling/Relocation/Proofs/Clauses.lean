import Relocation.Proofs.Uncovered

/-!
# Binding clauses that are found

A binding clause is looked for from the fault back to the last `import`. Where a statement
`import <names> = require(..)` stands around the fault, the search ends at the word that the
statement starts with, unless one of the names holds the word `import`, too: a name like
`importValue` in front of the fault is taken for the start of the statement. Then the clause is
missed, or only the part of it from that name on is found.

## Results

* `bindingClauseAt?_eq_some_iff`: what is found, told without the search;
* `ClauseFor.eq_of_start_le`: two clauses around one fault end at the same sign;
* `ClauseFor.found_iff`: a clause is found if and only if none of its names in front of the fault
  holds the word `import`.
-/

namespace Relocation

open Text

variable {text : List Char} {fault n : Nat} {blanking : Blanking}
  {front clause gap behind : List Char} {c : Char}

-- ---------------------------------------------------------------------------
-- The search succeeds
-- ---------------------------------------------------------------------------

theorem Text.WordAt.add_le {cs word : List Char} (h : WordAt cs n word) :
    n + byteLength word ≤ byteLength cs := by
  obtain ⟨before, after, rfl, rfl⟩ := h
  simp only [byteLength_append]
  omega

/-- Blanks in front of a word that is not blank are the blanks that a text starts with. -/
theorem takeWhile_isBlank_append {blanks : List Char} (hBlanks : allBlank blanks = true)
    (hc : isBlank c = false) (rest : List Char) :
    (blanks ++ c :: rest).takeWhile isBlank = blanks ∧
      dropBlank (blanks ++ c :: rest) = c :: rest := by
  have hAll : ∀ d ∈ blanks, isBlank d = true := List.all_eq_true.1 hBlanks
  have hNot : ¬isBlank c = true := by rw [hc]; exact Bool.false_ne_true
  constructor
  · rw [List.takeWhile_append_of_pos hAll, List.takeWhile_cons_of_neg hNot, List.append_nil]
  · rw [dropBlank, List.dropWhile_append_of_pos hAll, List.dropWhile_cons_of_neg hNot]

/-- Behind the sign of a clause stands no sign that would make another one of it. -/
theorem ClauseFor.not_sign (h : ClauseFor text fault blanking front clause gap behind) :
    ((gap ++ ("require".toList ++ behind)).head?.any fun c => c == '=' || c == '>') = false := by
  cases hGap : gap with
  | nil => rfl
  | cons d gap =>
    have hBlank : isBlank d = true := List.all_eq_true.1 h.spaced d (hGap ▸ List.mem_cons_self)
    rw [List.cons_append, List.head?_cons, Option.any_some, Bool.eq_false_iff]
    intro hSign
    rw [Bool.or_eq_true, beq_iff_eq, beq_iff_eq] at hSign
    rcases hSign with rfl | rfl
    · exact absurd hBlank (by decide)
    · exact absurd hBlank (by decide)

/-- Behind the sign of a clause stand the gap and the call. -/
theorem ClauseFor.ends (h : ClauseFor text fault blanking front clause gap behind) :
    (gap ++ ("require".toList ++ behind)).takeWhile isBlank = gap ∧
      dropBlank (gap ++ ("require".toList ++ behind)) = "require".toList ++ behind := by
  have hCallee : isBlank 'r' = false := by decide
  exact takeWhile_isBlank_append h.spaced hCallee ("equire".toList ++ behind)

/-- If no other `import` stands between the one of a clause and the fault, the search backwards ends
at the one of the clause. -/
theorem ClauseFor.cut (h : ClauseFor text fault blanking front clause gap behind)
    (hCut : isBoundary text fault = true)
    (hLast : ∀ n, WordAt text n "import".toList → n + 6 ≤ fault → n ≤ blanking.start) :
    ∃ before inside after, cutAt? text fault = some (before, after) ∧
      splitAtLast? "import".toList before = some (front, inside) ∧
        inside ++ after = clause ++ '=' :: (gap ++ ("require".toList ++ behind)) := by
  obtain ⟨before, after, hText, rfl⟩ := isBoundary_iff.1 hCut
  have hParts : (front ++ "import".toList)
      ++ (clause ++ '=' :: (gap ++ ("require".toList ++ behind))) = before ++ after := by
    rw [← hText, h.parts, List.append_assoc]
  have hLength : byteLength (front ++ "import".toList) ≤ byteLength before := by
    rw [byteLength_append, byteLength_import]
    exact h.fault_ge
  obtain ⟨inside, rfl, hInside⟩ := eq_append_of_le hParts hLength
  refine ⟨front ++ "import".toList ++ inside, inside, after, ?_, ?_, hInside.symm⟩
  · rw [hText, cutAt?_append]
  · refine splitAtLast?_eq_some_iff.2 ⟨rfl, ?_⟩
    intro n hAt
    rw [← h.start]
    refine hLast n (hText ▸ hAt.append_right after) ?_
    rw [← byteLength_import]
    exact hAt.add_le

/-- A clause is found if no other `import` stands between its own and the fault. -/
theorem ClauseFor.found (h : ClauseFor text fault blanking front clause gap behind)
    (hCut : isBoundary text fault = true)
    (hLast : ∀ n, WordAt text n "import".toList → n + 6 ≤ fault → n ≤ blanking.start) :
    bindingClauseAt? text fault = some blanking := by
  obtain ⟨before, inside, after, hBefore, hWord, hInside⟩ := h.cut hCut hLast
  have hSign : splitAtFirst? ['='] (inside ++ after)
      = some (clause, gap ++ ("require".toList ++ behind)) :=
    splitAtFirst?_singleton_iff.2 ⟨hInside, h.sign⟩
  have hOpens : (inside ++ after).head?.any startsClause = true := by
    rw [hInside, head?_append_sign]
    exact h.opens
  have hCallee := afterCallee?_eq_some_iff.2 ⟨rfl, h.called⟩
  have hCall := Nat.not_lt.2 h.fault_le
  have hBlanking : blanking = ⟨byteLength front, byteLength front + 6 + byteLength clause + 1,
      some (byteLength front + 6 + byteLength clause + 1 + byteLength gap)⟩ := by
    rw [← h.call, ← h.stop, ← h.start]
  rw [hBlanking, bindingClauseAt?, hBefore]
  simp only [Option.bind_eq_bind, Option.bind_some, hWord, hSign, h.lone, hOpens, h.not_sign,
    h.named, h.ends, hCallee, byteLength_import, Bool.not_true, Bool.false_eq_true, if_false,
    if_neg hCall]
  rfl

/-- What is found for a fault: the clause that the last `import` in front of the fault starts, if it
starts one. -/
theorem bindingClauseAt?_eq_some_iff :
    bindingClauseAt? text fault = some blanking ↔
      isBoundary text fault = true ∧
        (∀ n, WordAt text n "import".toList → n + 6 ≤ fault → n ≤ blanking.start) ∧
          ∃ front clause gap behind, ClauseFor text fault blanking front clause gap behind := by
  constructor
  · exact bindingClauseAt?_found
  · rintro ⟨hCut, hLast, front, clause, gap, behind, hFor⟩
    exact hFor.found hCut hLast

-- ---------------------------------------------------------------------------
-- Clauses around one fault
-- ---------------------------------------------------------------------------

/-- No equality sign stands in a clause in front of its sign. -/
theorem ClauseFor.sign_le (h : ClauseFor text fault blanking front clause gap behind)
    (hChar : CharAt text n '=') (hStart : blanking.start ≤ n) : blanking.stop ≤ n + 1 := by
  have hStop := h.stop
  have hFront := h.start
  rw [h.parts] at hChar
  rcases hChar.of_append with hHere | ⟨m, rfl, hBehind⟩
  · have hLt := hHere.lt
    omega
  rcases hBehind.of_append with hHere | ⟨k, rfl, hBehindWord⟩
  · exact absurd hHere.mem (by decide)
  rcases hBehindWord.of_append with hHere | ⟨j, rfl, -⟩
  · exact absurd hHere.mem h.sign
  · rw [byteLength_import]
    omega

/-- Between the sign of a clause and the call that it leads to there are only blanks. -/
theorem ClauseFor.blank_gap (h : ClauseFor text fault blanking front clause gap behind)
    (hChar : CharAt text n c) (hStop : blanking.stop ≤ n)
    (hCall : n < blanking.stop + byteLength gap) : isBlank c = true := by
  obtain ⟨hParts, hLength, -⟩ := h.stretch
  rw [hParts] at hChar
  rcases hChar.of_append with hHere | ⟨m, rfl, hBehind⟩
  · have hLt := hHere.lt
    omega
  rcases hBehind.of_append with hHere | ⟨k, rfl, hBehindSign⟩
  · have hLt := hHere.lt
    omega
  rcases hBehindSign.of_append with hHere | ⟨j, rfl, -⟩
  · exact List.all_eq_true.1 h.spaced c hHere.mem
  · omega

/-- A word that starts behind the sign of a clause does not start in front of the call. -/
theorem ClauseFor.call_le {word : List Char}
    (h : ClauseFor text fault blanking front clause gap behind)
    (hWord : WordAt text n (c :: word)) (hc : isBlank c = false) (hStop : blanking.stop ≤ n) :
    blanking.stop + byteLength gap ≤ n := by
  by_contra hGap
  have hBlank := h.blank_gap hWord.head hStop (by omega)
  rw [hBlank] at hc
  contradiction

/-- Two clauses around one fault end at the same sign and lead to the same call. -/
theorem ClauseFor.eq_of_start_le {found : Blanking} {front' clause' gap' behind' : List Char}
    (h : ClauseFor text fault blanking front clause gap behind)
    (h' : ClauseFor text fault found front' clause' gap' behind')
    (hLe : blanking.start ≤ found.start) :
    found = ⟨found.start, blanking.stop, blanking.call⟩ := by
  obtain ⟨hSign, hCallee⟩ := h.signAt
  obtain ⟨hSign', hCallee'⟩ := h'.signAt
  have hAfter := h.stop
  have hAfter' := h'.stop
  have hStart := h.start
  have hStart' := h'.start
  have hStop : found.stop = blanking.stop := by
    have hHere : blanking.stop ≤ found.stop := by
      have hSignLe := h.sign_le hSign' (by omega)
      omega
    -- the word of the later clause does not stand in the gap of the earlier one
    have hBefore : found.start < blanking.stop := by
      by_contra hBehind
      have hWord : WordAt text found.start "import".toList := ⟨front', _, h'.parts, hStart'.symm⟩
      have hCallLe := h.call_le hWord (by decide) (by omega)
      have hFault := h.fault_le
      have hFault' := h'.fault_ge
      omega
    have hThere := h'.sign_le hSign (by omega)
    omega
  have hGap : byteLength gap' = byteLength gap := by
    have hLe := h.call_le hCallee' (by decide) (by omega)
    have hLe' := h'.call_le hCallee (by decide) (by omega)
    omega
  have hCall : found.call = blanking.call := by
    rw [h.call, h'.call, ← hAfter, ← hAfter', hStop, hGap]
  rw [← hStop, ← hCall]

-- ---------------------------------------------------------------------------
-- Names in a clause
-- ---------------------------------------------------------------------------

theorem continuesWord_of_startsClause (h : startsClause c = true) : continuesWord c = false := by
  simp only [startsClause, isAsciiBlank, Bool.or_eq_true, beq_iff_eq] at h
  rcases h with (((((rfl | rfl) | rfl) | rfl) | rfl) | rfl) | rfl <;> decide

/-- Neither the word `import` in front of a clause nor the clause itself ends within a word. -/
theorem ClauseFor.splitsNoWord (h : ClauseFor text fault blanking front clause gap behind) :
    let value := gap ++ ("require".toList ++ behind)
    SplitsNoWord (front ++ "import".toList) (clause ++ '=' :: value) ∧
      SplitsNoWord clause ('=' :: value) := by
  intro value
  refine ⟨.inr ?_, .inr rfl⟩
  have hOpens := h.opens
  cases clause with
  | nil => rfl
  | cons c clause =>
    rw [List.cons_append, List.head?_cons, Option.any_some] at hOpens ⊢
    exact continuesWord_of_startsClause hOpens

/-- An `import` between the word that a clause starts with and the fault stands in the clause. -/
theorem ClauseFor.wordAt_clause (h : ClauseFor text fault blanking front clause gap behind)
    (hWord : WordAt text n "import".toList) (hFault : n + 6 ≤ fault) (hStart : blanking.start < n) :
    ∃ m, n = blanking.start + 6 + m ∧ WordAt clause m "import".toList := by
  have hWhole : ("import".toList.all continuesWord) = true := by decide
  have hFront := h.start
  obtain ⟨hBefore, hBehind⟩ := h.splitsNoWord
  obtain ⟨before, after, hText, hn⟩ := id hWord
  have hParts := h.parts.symm.trans hText
  rw [← List.append_assoc] at hParts
  rcases hBefore.word_cases hWhole hParts with ⟨more, hHere, -⟩ | ⟨between, rfl, hRest⟩
  · -- the word would be the one that the clause starts with, or stand in front of it
    have hLength := congrArg byteLength hHere
    simp only [byteLength_append] at hLength
    omega
  rcases hBehind.word_cases hWhole hRest with ⟨more, hClause, -⟩ | ⟨sign, rfl, hValue⟩
  · refine ⟨byteLength between, ?_, between, more, hClause, rfl⟩
    rw [← hn, byteLength_append, byteLength_append, byteLength_import, hFront]
  · -- the word would stand in the gap behind the sign
    have hSign : 1 ≤ byteLength sign := by
      cases sign with
      | nil => exact absurd (List.cons.inj hValue).1 (by decide)
      | cons d sign =>
        have hPos := Char.utf8Size_pos d
        rw [byteLength_cons]
        omega
    have hStop := h.stop
    have hCall := h.fault_le
    simp only [byteLength_append, byteLength_import] at hn
    have hCallLe := h.call_le hWord (by decide) (by omega)
    omega

theorem ClauseFor.wordAt_of_clause {m : Nat}
    (h : ClauseFor text fault blanking front clause gap behind)
    (hWord : WordAt clause m "import".toList) :
    WordAt text (blanking.start + 6 + m) "import".toList := by
  obtain ⟨before, after, rfl, rfl⟩ := hWord
  refine ⟨front ++ ("import".toList ++ before),
    after ++ '=' :: (gap ++ ("require".toList ++ behind)), ?_, ?_⟩
  · rw [h.parts]
    simp only [List.append_assoc]
  · rw [byteLength_append, byteLength_append, byteLength_import, h.start, Nat.add_assoc]

/-- **Finding a binding clause.** Around a fault in a statement `import <names> = require(..)`,
anywhere from the end of the word `import` up to the call, the clause is found if and only if none
of the names holds an `import` that ends in front of the fault. Otherwise no clause is found, or
the part of it from such an `import` on, which ends at the same sign and leads to the same call.

`h` says that the text has a statement of this form there: nothing in front that continues a word,
a clause without marks that cannot stand in it, a first equality sign, blanks, and `require` with
its parenthesis. `hCut` says that the fault is reported between two characters. -/
theorem ClauseFor.found_iff (h : ClauseFor text fault blanking front clause gap behind)
    (hCut : isBoundary text fault = true) :
    (bindingClauseAt? text fault = some blanking ↔
        ∀ m, WordAt clause m "import".toList → fault < blanking.start + 6 + m + 6) ∧
      ∀ found, bindingClauseAt? text fault = some found → found = blanking ∨
        ∃ m, WordAt clause m "import".toList ∧
          found = ⟨blanking.start + 6 + m, blanking.stop, blanking.call⟩ := by
  constructor
  · constructor
    · intro hFound m hWord
      obtain ⟨-, hLast, -⟩ := bindingClauseAt?_found hFound
      by_contra hFault
      have hLe := hLast _ (h.wordAt_of_clause hWord) (by omega)
      omega
    · intro hNames
      refine h.found hCut fun n hWord hFault => ?_
      by_contra hStart
      obtain ⟨m, rfl, hClause⟩ := h.wordAt_clause hWord hFault (by omega)
      have hLt := hNames m hClause
      omega
  · intro found hFound
    obtain ⟨-, hLast, front', clause', gap', behind', hFor⟩ := bindingClauseAt?_found hFound
    have hOwn : WordAt text blanking.start "import".toList := ⟨front, _, h.parts, h.start.symm⟩
    have hLe : blanking.start ≤ found.start := by
      refine hLast _ hOwn ?_
      rw [h.start]
      exact h.fault_ge
    -- from where it starts on, what is found has the sign and the call of the clause
    have hSame := h.eq_of_start_le hFor hLe
    rcases Nat.eq_or_lt_of_le hLe with hStart | hStart
    · left
      rw [hSame, ← hStart]
    · right
      have hWord : WordAt text found.start "import".toList :=
        ⟨front', _, hFor.parts, hFor.start.symm⟩
      have hFault : found.start + 6 ≤ fault := by
        rw [hFor.start]
        exact hFor.fault_ge
      obtain ⟨m, hm, hClause⟩ := h.wordAt_clause hWord hFault hStart
      exact ⟨m, hClause, by rw [← hm]; exact hSame⟩

/-- A statement with a name that holds the word `import`. -/
def valueLine : List Char := "import \x7b importValue \x7d = require('@aws-cdk/core')".toList

/-- The clause of the statement. -/
def valueClause : List Char := " \x7b importValue \x7d ".toList

/-- The blanking of the clause with its word and its sign. -/
def valueBlanking : Blanking := ⟨0, 24, some 25⟩

theorem clauseFor_valueLine (fault : Nat) (hStart : 6 ≤ fault) (hCall : fault ≤ 25) :
    ClauseFor valueLine fault valueBlanking [] valueClause [' '] "('@aws-cdk/core')".toList where
  parts := by decide
  lone := rfl
  opens := by decide
  named := by decide
  sign := by decide
  spaced := by decide
  called := by decide
  start := rfl
  stop := by decide
  call := by decide
  fault_ge := hStart
  fault_le := hCall

/-- In front of the end of the word in the name, the clause is found. -/
theorem found_valueLine :
    ClauseFor valueLine 14 valueBlanking [] valueClause [' '] "('@aws-cdk/core')".toList ∧
      isBoundary valueLine 14 = true ∧
        bindingClauseAt? valueLine 14 = some valueBlanking := by
  have hFor := clauseFor_valueLine 14 (by decide) (by decide)
  have hCut : isBoundary valueLine 14 = true := by decide
  have hFirst : splitAtFirst? "import".toList valueClause
      = some (" \x7b ".toList, "Value \x7d ".toList) := by decide
  have hLength : byteLength " \x7b ".toList = 3 := by decide
  refine ⟨hFor, hCut, (hFor.found_iff hCut).1.2 fun m hWord => ?_⟩
  have hLe := le_of_splitAtFirst? hFirst hWord
  show 14 < 0 + 6 + m + 6
  omega

/-- Not every clause around a fault is found: at the equality sign of the statement the search
takes the end of the name `importValue` for the start of the clause, and gives up there. -/
theorem not_found_valueLine :
    ¬∀ (text : List Char) (fault : Nat) (blanking : Blanking) (front clause gap behind : List Char),
      ClauseFor text fault blanking front clause gap behind → isBoundary text fault = true →
        bindingClauseAt? text fault = some blanking := by
  intro h
  have hFor := clauseFor_valueLine 23 (by decide) (by decide)
  have hFound := h _ _ _ _ _ _ _ hFor (by decide)
  exact absurd hFound (by decide)

end Relocation

import Relocation.Proofs.Attempts
import Relocation.Proofs.Scanner.Words
import Relocation.Proofs.Spans

/-!
# Calls that recovery uncovers

A call counts as destructured because recovery has blanked a binding clause in front of it. The
clause is looked for in the bare text: from the fault back to the last `import`, and from there on
to the first equality sign. Both stand in the source, since what recovery leaves is never a word of
its own making. But the search knows nothing of comments and literals. The word is a token of the
source if and only if the scanner, on its way through the source, starts a lexeme there that is not
raw text: in a comment no lexeme starts, within a literal or a template neither.

## Results

* `Accounted.charAt_behind`: what stands behind a word in the text stands behind it in the source;
* `BlankingAfter.uncovers`: what is blanked to uncover a call;
* `leadsTo_importsOf`: what is blanked to uncover a destructured import, and when the word `import`
  in it is a token.
-/

namespace Relocation

open Text TypeScript

variable {source text : List Char} {offset call : Nat} {c : Char} {blanking : Blanking}

-- ---------------------------------------------------------------------------
-- Behind a word
-- ---------------------------------------------------------------------------

/-- Where the text goes on behind a character that is not blank, the source does so, too. -/
theorem Blanks.exists_charAt_behind {d : Char} (h : Blanks source text)
    (hWord : CharAt text offset d) (hd : isBlank d = false)
    (hChar : CharAt text (offset + d.utf8Size) c) : ∃ e, CharAt source (offset + d.utf8Size) e := by
  obtain ⟨front, behind, rfl, rfl⟩ := hWord
  obtain ⟨front₀, behind₀, rfl, hFront, hBehind⟩ := h.cut_at hd
  cases behind₀ with
  | nil =>
    have hLength := hBehind.byteLength_eq
    have hLt := hChar.lt
    simp only [byteLength_append, byteLength_cons, byteLength_nil] at hLength hLt
    omega
  | cons e more =>
    refine ⟨e, front₀ ++ [d], more, by simp, ?_⟩
    rw [byteLength_append, byteLength_cons, byteLength_nil, hFront.byteLength_eq, Nat.add_zero]

/-- What stands behind a word in the text stands behind it in the source: neither a blank line
nor a binding clause starts right behind a word. `h` says that each blank of the text is
accounted for, and `hWord`, `hd` and `hSize` that a word character of one byte stands at the
offset. -/
theorem Accounted.charAt_behind {d : Char} (h : Accounted source text)
    (hWord : CharAt text offset d) (hd : continuesWord d = true) (hSize : d.utf8Size = 1)
    (hChar : CharAt text (offset + 1) c) : CharAt source (offset + 1) c := by
  have hNotBlank : isBlank d = false := by
    by_contra hBlank
    rw [Bool.not_eq_false] at hBlank
    rw [continuesWord_of_isBlank hBlank] at hd
    contradiction
  obtain ⟨e, hSource⟩ := h.blanks.exists_charAt_behind hWord hNotBlank (by rwa [hSize])
  rw [hSize] at hSource
  rcases h.reason _ e hSource with hKept | hLine | hBehind
  · rwa [hChar.unique hKept]
  · obtain ⟨above, line, below, rfl, hIsLine, hBlank, hLe, hLt⟩ := hLine
    obtain ⟨front, behind, rfl, rfl⟩ : CharAt above offset d :=
      hWord.of_blankLine hNotBlank hBlank (by omega)
    -- the line would start right behind the word, where no line feed stands
    rw [byteLength_append, byteLength_cons, hSize] at hLe
    obtain rfl : behind = [] := eq_nil_of_byteLength_eq_zero (by omega)
    have hFeed : d = '\n' := by simpa using hIsLine.1
    rw [hFeed] at hd
    exact absurd hd (by decide)
  · obtain ⟨start, -, hLe, hBlank, hLone⟩ := hBehind
    rcases Nat.lt_or_eq_of_le hLe with hLt | rfl
    · rw [hBlank offset d (Nat.le_of_lt_succ hLt) (Nat.le_succ _) hWord] at hNotBlank
      contradiction
    · -- the clause would start within the word
      rw [hLone offset d hWord (by rw [hSize])] at hd
      contradiction

-- ---------------------------------------------------------------------------
-- Blankings that uncover a call
-- ---------------------------------------------------------------------------

/-- A line that is blanked leads to no call. -/
theorem filledLine?_call {before after : List Char}
    (h : filledLine? before after = some blanking) : blanking.call = none := by
  fun_induction filledLine? before after with
  | case1 _ _ _ _ _ _ _ ih => exact ih h
  | case2 => obtain rfl := Option.some.inj h; rfl
  | case3 => contradiction
  | case4 => obtain rfl := Option.some.inj h; rfl

/-- A blanking that leads to a call is that of a binding clause. -/
theorem bindingClauseAt?_of_call {fault : Nat} (h : blankingFor? text fault = some blanking)
    (hCall : blanking.call = some call) : bindingClauseAt? text fault = some blanking := by
  rcases Option.or_eq_some_iff.1 h with hClause | ⟨-, hLine⟩
  · exact hClause
  · unfold filledLineAt? at hLine
    split at hLine
    · rw [filledLine?_call hLine] at hCall
      contradiction
    · contradiction

/-- What is blanked to uncover a call, as the source has it: from a word `import` on, behind which a
clause may start, up to the equality sign of the clause. In the text that is left, nothing but
blanks stands between the start of the clause and the call. -/
structure Uncovers (source text : List Char) (blanking : Blanking) (call : Nat) : Prop where
  word : WordAt source blanking.start "import".toList
  opens : ∃ c, CharAt source (blanking.start + 6) c ∧ startsClause c = true
  named : blanking.start + 7 < blanking.stop
  sign : CharAt source (blanking.stop - 1) '='
  leads : blanking.stop ≤ call
  callee : WordAt source call "require".toList
  blank : ∀ n c, blanking.start ≤ n → n < call → CharAt text n c → isBlank c = true

section Clauses

variable {fault : Nat} {front clause gap behind : List Char}

theorem ClauseFor.call_eq (h : ClauseFor text fault blanking front clause gap behind)
    (hCall : blanking.call = some call) : call = blanking.stop + byteLength gap := by
  rw [h.stop]
  exact Option.some.inj (hCall.symm.trans h.call)

/-- The sign ends the clause, and behind the sign and the gap stands the callee. -/
theorem ClauseFor.signAt (h : ClauseFor text fault blanking front clause gap behind) :
    CharAt text (blanking.stop - 1) '=' ∧
      WordAt text (blanking.stop + byteLength gap) "require".toList := by
  have hSign : '='.utf8Size = 1 := rfl
  refine ⟨⟨front ++ ("import".toList ++ clause), gap ++ ("require".toList ++ behind), ?_, ?_⟩,
    ⟨front ++ ("import".toList ++ (clause ++ '=' :: gap)), behind, ?_, ?_⟩⟩
  · rw [h.parts]
    simp only [List.append_assoc]
  · rw [byteLength_append, byteLength_append, byteLength_import, h.stop]
    omega
  · rw [h.parts]
    simp only [List.append_assoc, List.cons_append]
  · simp only [byteLength_append, byteLength_cons, byteLength_import, hSign, h.stop]
    omega

/-- Blanking the clause leaves nothing but blanks in front of the callee. -/
theorem ClauseFor.blank_apply {d : Char} (h : ClauseFor text fault blanking front clause gap behind)
    (hStart : blanking.start ≤ offset) (hStop : offset < blanking.stop + byteLength gap)
    (hChar : CharAt (blanking.apply text) offset d) : isBlank d = true := by
  obtain ⟨-, hLength, hApply⟩ := h.stretch
  rw [hApply] at hChar
  rcases hChar.of_append with hFront | ⟨n, rfl, hBehindFront⟩
  · have hLt := hFront.lt
    have hFrontLength := h.start
    omega
  rcases hBehindFront.of_append with hClause | ⟨m, rfl, hBehindClause⟩
  · exact isBlank_of_mem_blanked hClause.mem
  rcases hBehindClause.of_append with hGap | ⟨k, rfl, -⟩
  · exact List.all_eq_true.1 h.spaced d hGap.mem
  · rw [byteLength_blanked] at hStop
    omega

/-- A blanking for a binding clause uncovers the call that it leads to. -/
theorem ClauseFor.uncovers {later : List Char}
    (h : ClauseFor text fault blanking front clause gap behind) (hText : Accounted source text)
    (hCall : blanking.call = some call) (hLater : Blanks (blanking.apply text) later) :
    Uncovers source later blanking call := by
  have hImpor : byteLength "impor".toList = 5 := by decide
  have hCallee : ("require".toList.all fun c => !isBlank c) = true := by decide
  obtain rfl := h.call_eq hCall
  obtain ⟨c, more, rfl⟩ : ∃ c more, clause = c :: more := by
    cases clause with
    | nil => exact absurd h.named (by decide)
    | cons c more => exact ⟨c, more, rfl⟩
  refine ⟨?_, ⟨c, ?_, by simpa using h.opens⟩, ?_, ?_, Nat.le_add_right _ _, ?_, ?_⟩
  · exact hText.blanks.wordAt ⟨front, _, h.parts, h.start.symm⟩ (by decide) isBlank_of_mem_import
  · -- the last letter of the word stands in front of the clause
    have hLetter : CharAt text (blanking.start + 5) 't' :=
      ⟨front ++ "impor".toList, _, by rw [h.parts, List.append_assoc]; rfl,
        by rw [byteLength_append, hImpor, h.start]⟩
    refine hText.charAt_behind hLetter (by decide) (by decide) ?_
    refine ⟨front ++ "import".toList, _, by rw [h.parts, List.append_assoc]; rfl, ?_⟩
    rw [byteLength_append, byteLength_import, h.start]
  · have hPos := Char.utf8Size_pos c
    rw [h.stop, h.start, byteLength_cons]
    omega
  · exact (hText.blanks.charAt h.signAt.1).resolve_right (by decide)
  · exact hText.blanks.wordAt h.signAt.2 (by decide) fun d hd => by
      simpa using List.all_eq_true.1 hCallee d hd
  · intro n d hStart hStop hChar
    rcases hLater.charAt hChar with hHere | hBlank
    · exact h.blank_apply hStart hStop hHere
    · exact hBlank

end Clauses

variable {Tree : Type} {parse : List Char → Except Nat Tree} {n m : Nat} {working : Working}

/-- A blanking is made before the attempt that parses. -/
theorem BlankingAfter.lt_of_parses {tree : Tree} (h : BlankingAfter parse source n blanking)
    (hLast : attempt? parse source m = some working) (hParse : parse working.text = .ok tree) :
    n < m := by
  obtain ⟨earlier, fault, hEarlier, hFault, -⟩ := h
  by_contra hNot
  obtain ⟨k, rfl⟩ : ∃ k, n = m + k := ⟨n - m, by omega⟩
  obtain ⟨-, rfl⟩ | ⟨_, _, _, -, hFault', -⟩ := attempt?_add_cases hLast hEarlier
  · rw [hParse] at hFault
    contradiction
  · rw [hParse] at hFault'
    contradiction

/-- A blanking that leads to a call uncovers the call, in the text that parses in the end. `h`
says that the blanking has been made at some attempt, `hCall` that it leads to a call, and
`hLast` and `hParse` name the last attempt: what has been blanked by then has not been given
back. -/
theorem BlankingAfter.uncovers {tree : Tree} (h : BlankingAfter parse source n blanking)
    (hCall : blanking.call = some call) (hLast : attempt? parse source m = some working)
    (hParse : parse working.text = .ok tree) : Uncovers source working.text blanking call := by
  have hLt := h.lt_of_parses hLast hParse
  obtain ⟨earlier, fault, hEarlier, hFault, hFor⟩ := h
  obtain ⟨front, clause, gap, behind, hClause⟩ :=
    bindingClauseAt?_spec (bindingClauseAt?_of_call hFor hCall)
  have hNext : attempt? parse source (n + 1) = some (earlier.blank blanking) :=
    attempt?_succ_iff.2 ⟨earlier, fault, hEarlier, hFault, by rw [Working.step?, hFor]; rfl⟩
  obtain ⟨k, rfl⟩ : ∃ k, m = n + 1 + k := ⟨m - (n + 1), by omega⟩
  exact hClause.uncovers (attempt?_accounted hEarlier) hCall (attempt?_blanks hNext hLast)

-- ---------------------------------------------------------------------------
-- The word in the source
-- ---------------------------------------------------------------------------

/-- What a clause may start with ends a word. -/
theorem endsWord_of_startsClause (h : startsClause c = true) : EndsWord c := by
  simp only [startsClause, isAsciiBlank, Bool.or_eq_true, beq_iff_eq] at h
  rcases h with (((((rfl | rfl) | rfl) | rfl) | rfl) | rfl) | rfl <;>
    exact ⟨by decide, by decide, by decide⟩

/-- What follows a cut behind the mark follows it in the text without the mark. -/
theorem follows_withoutMark {front rest : List Char} (h : text = front ++ rest)
    (hLe : markLength text ≤ byteLength front) :
    Follows (withoutMark text) rest (byteLength front - markLength text) := by
  obtain ⟨mark, hText, hMark⟩ := eq_mark_append text
  obtain ⟨between, rfl, hRest⟩ := eq_append_of_le (hText.symm.trans h) (by omega)
  refine ⟨between, hRest, ?_⟩
  rw [byteLength_append]
  omega

/-- The mark lies in front of the word. -/
theorem markLength_le {front rest : List Char} (h : text = front ++ 'i' :: rest) :
    markLength text ≤ byteLength front := by
  unfold markLength
  split
  · rename_i hHead
    rw [h] at hHead
    cases front with
    | nil => exact absurd (Option.some.inj hHead) (by decide)
    | cons d front =>
      obtain rfl : d = '\ufeff' := Option.some.inj hHead
      have hSize : '\ufeff'.utf8Size = 3 := rfl
      rw [byteLength_cons]
      omega
  · exact Nat.zero_le _

/-- The word `import` in front of a call that recovery uncovers is a token of the source if and only
if a lexeme starts there that is not raw text. -/
theorem Uncovers.importToken_iff (h : Uncovers source text blanking call) (dialect : Dialect) :
    let start := blanking.start - markLength source
    ImportToken dialect (withoutMark source) start ↔
      ∃ lexeme ∈ lexemesOf dialect (withoutMark source),
        lexeme.start = start ∧ lexeme.token.isRaw = false := by
  intro start
  obtain ⟨front, behind, hSource, hFront⟩ := h.word
  obtain ⟨c, hChar, hOpens⟩ := h.opens
  obtain ⟨more, rfl⟩ : ∃ more, behind = c :: more := by
    have hHead : CharAt ((front ++ "import".toList) ++ behind)
        (byteLength (front ++ "import".toList)) c := by
      rw [byteLength_append, byteLength_import, hFront, List.append_assoc, ← hSource]
      exact hChar
    exact List.head?_eq_some_iff.1 (CharAt.append_iff_head?.1 hHead)
  have hRest := follows_withoutMark hSource (markLength_le hSource)
  rw [hFront] at hRest
  exact TypeScript.importToken_iff hRest (endsWord_of_startsClause hOpens)

-- ---------------------------------------------------------------------------
-- Destructured imports
-- ---------------------------------------------------------------------------

/-- The items of a text, or its fault, as recovery asks for them. -/
def parseOf (fileName : String) (text : List Char) : Except Nat (List Item) :=
  itemsOf (.ofFileName fileName) (withoutMark text)

/-- Recovery has made the blanking to uncover the call that the import is read from. -/
def LeadsTo (source fileName : String) (blanking : Blanking) (located : LocatedImport) : Prop :=
  ∃ text items call n, workingText? source fileName = some text ∧
    parseOf fileName text = .ok items ∧ .requireCall call located.path ∈ items ∧
    BlankingAfter (parseOf fileName) source.toList n blanking ∧ blanking.call = some call

/-- A destructured import is one of the calls that were led to. -/
theorem ParsedSource.exists_call_of_mem_imports {parsed : ParsedSource} {located : LocatedImport}
    (h : located ∈ parsed.imports) (hShape : located.shape = .destructuringRequire) :
    ∃ call ∈ parsed.calls, .requireCall call located.path ∈ parsed.items := by
  obtain ⟨item, hItem, hImport⟩ := List.mem_filterMap.1 (List.mem_filter.1 h).1
  cases item with
  | other => contradiction
  | requireCall start path =>
    obtain rfl := Option.some.inj hImport
    dsimp only at hShape
    by_cases hCalled : parsed.isDestructured start = true
    · exact ⟨start, List.contains_iff_mem.1 hCalled, hItem⟩
    · rw [if_neg hCalled] at hShape
      contradiction
  | bareImport | bindingImport | aliasImport =>
    obtain rfl := Option.some.inj hImport
    contradiction

/-- A destructured import is read from a call that a binding clause led to. -/
theorem exists_leadsTo {source fileName : String} {located : LocatedImport}
    (hLocated : located ∈ importsOf source fileName)
    (hShape : located.shape = .destructuringRequire) :
    ∃ blanking, LeadsTo source fileName blanking located := by
  unfold importsOf at hLocated
  cases hParsed : ParsedSource.ofSource? source.toList fileName with
  | none => simp [hParsed] at hLocated
  | some parsed =>
    rw [hParsed, Option.map_some, Option.getD_some] at hLocated
    obtain ⟨call, hCall, hItem⟩ := ParsedSource.exists_call_of_mem_imports hLocated hShape
    obtain ⟨recovered, hRecovered, rfl⟩ := Option.map_eq_some_iff.1 hParsed
    obtain ⟨n, -, hLast, hParse⟩ := recover?_eq_some_iff.1 hRecovered
    obtain ⟨m, blanking, -, hMade, hLeads⟩ := BlankingAfter.of_mem_calls hLast hCall
    exact ⟨blanking, recovered.working.text, recovered.tree, call, m,
      by rw [workingText?, hRecovered]; rfl, hParse, hItem, hMade, hLeads⟩

/-- **Calls behind binding clauses.** An import counts as destructured only if recovery has
blanked a binding clause in front of its call. What was blanked goes from a word `import` of the
source, behind which a clause may start, up to an equality sign, and nothing but blanks is left
between that word and the call.

The word need not be code: it is a token of the source if and only if a lexeme starts there that
is not raw text, so a word in a comment or in a template is none.

* `hText` names the text that recovery has left;
* `hLocated` and `hShape` say that the import is found, as a destructured one. -/
theorem leadsTo_importsOf {source fileName : String} {located : LocatedImport}
    (hText : workingText? source fileName = some text)
    (hLocated : located ∈ importsOf source fileName)
    (hShape : located.shape = .destructuringRequire) :
    (∃ blanking, LeadsTo source fileName blanking located) ∧
      ∀ blanking, LeadsTo source fileName blanking located →
        let dialect := Dialect.ofFileName fileName
        let unmarked := withoutMark source.toList
        let start := blanking.start - markLength source.toList
        (∃ call, blanking.call = some call ∧ Uncovers source.toList text blanking call) ∧
          (ImportToken dialect unmarked start ↔
            ∃ lexeme ∈ lexemesOf dialect unmarked,
              lexeme.start = start ∧ lexeme.token.isRaw = false) := by
  refine ⟨exists_leadsTo hLocated hShape, fun blanking hLeads => ?_⟩
  intro dialect unmarked start
  obtain ⟨text', items, call, n, hText', hItems, -, hMade, hCall⟩ := hLeads
  obtain rfl : text' = text := Option.some.inj (hText'.symm.trans hText)
  obtain ⟨recovered, hRecovered, rfl⟩ := Option.map_eq_some_iff.1 hText
  obtain ⟨m, -, hLast, hParse⟩ := recover?_eq_some_iff.1 hRecovered
  have hUncovers := hMade.uncovers hCall hLast hParse
  exact ⟨⟨call, hCall, hUncovers⟩, hUncovers.importToken_iff dialect⟩

/-- A binding clause with its call. -/
def destructured : String := "import \x7b A \x7d = require('b')"

/-- The clause is blanked from its word, which is a token. -/
theorem importToken_destructured :
    let located : LocatedImport := ⟨.destructuringRequire, ⟨23, 26, "b"⟩⟩
    workingText? destructured "a" = some "               require('b')".toList ∧
      located ∈ importsOf destructured "a" ∧ located.shape = .destructuringRequire ∧
      LeadsTo destructured "a" ⟨0, 14, some 15⟩ located ∧
      ImportToken (.ofFileName "a") (withoutMark destructured.toList) 0 := by
  intro located
  have hText : workingText? destructured "a" = some "               require('b')".toList := by
    decide +kernel
  have hLocated : located ∈ importsOf destructured "a" := by
    rw [importsOf_eq_unsorted]
    decide +kernel
  have hLeads : LeadsTo destructured "a" ⟨0, 14, some 15⟩ located := by
    refine ⟨_, [.requireCall 15 ⟨23, 26, "b"⟩], 15, 0, hText, ?_, by decide,
      ⟨⟨destructured.toList, []⟩, 13, rfl, ?_, ?_⟩, rfl⟩
    · decide +kernel
    · decide +kernel
    · decide +kernel
  obtain ⟨-, hAll⟩ := leadsTo_importsOf hText hLocated rfl
  refine ⟨hText, hLocated, rfl, hLeads, (hAll _ hLeads).2.2 ?_⟩
  refine ⟨⟨.word "import", 0, 6, true⟩, ?_, by decide +kernel, rfl⟩
  decide +kernel

/-- A comment with the word `import`, and a line that goes on like a binding clause. -/
def commentedWord : String := "// see import for A\n\x7d = require('@aws-cdk/x')"

/-- Not every destructured import has been uncovered from an `import` that is a token: the word
may stand in a comment, above a line that only ends like a statement of this form. -/
theorem not_importToken_importsOf :
    ¬∀ source fileName, ∀ located ∈ importsOf source fileName,
      located.shape = .destructuringRequire →
        ∀ blanking, LeadsTo source fileName blanking located →
          ImportToken (.ofFileName fileName) (withoutMark source.toList)
            (blanking.start - markLength source.toList) := by
  intro h
  have hLocated :
      ⟨.destructuringRequire, ⟨32, 44, "@aws-cdk/x"⟩⟩ ∈ importsOf commentedWord "a" := by
    rw [importsOf_eq_unsorted]
    decide +kernel
  have hText : workingText? commentedWord "a"
      = some "// see             \n    require('@aws-cdk/x')".toList := by
    decide +kernel
  have hLeads : LeadsTo commentedWord "a" ⟨7, 23, some 24⟩
      ⟨.destructuringRequire, ⟨32, 44, "@aws-cdk/x"⟩⟩ := by
    refine ⟨_, [.requireCall 24 ⟨32, 44, "@aws-cdk/x"⟩], 24, 0, hText, ?_, by decide,
      ⟨⟨commentedWord.toList, []⟩, 20, rfl, ?_, ?_⟩, rfl⟩
    · decide +kernel
    · decide +kernel
    · decide +kernel
  obtain ⟨-, lexeme, hLexeme, hStart, -⟩ := h commentedWord "a" _ hLocated rfl _ hLeads
  have hNone : ∀ lexeme ∈ lexemesOf (.ofFileName "a") (withoutMark commentedWord.toList),
      lexeme.start ≠ 7 := by
    decide +kernel
  exact hNone lexeme hLexeme hStart

end Relocation

import Relocation.Proofs.Destructured

/-!
# The calls that recovery notes

When recovery blanks a binding clause, it notes the call that the clause leads to. Whatever the
parser reports afterwards, the note stays true: the clause stays blank, and the name of the callee
is either still there or has become seven spaces, because no blanking starts or ends within a word.
The clauses that are noted start at different words `import`. But their calls need not differ: where
an equality sign stands in front of a clause with nothing but blanks in between, blanking the clause
brings the sign up to the call, and the sign may belong to another clause.

## Results

* `Severed.blanks_word`: a blanking takes a word as a whole or leaves it;
* `Uncovered.step`: what is noted of a call stays true;
* `Booked.step`: a step adds at most one note, and the notes stay in order;
* `attempt?_booked`: at every attempt the notes are in order;
* `not_nodup_calls`: a call can be noted twice.
-/

namespace Relocation

open Text TypeScript

variable {source text : List Char} {offset call : Nat} {c : Char} {blanking : Blanking}

-- ---------------------------------------------------------------------------
-- Words and blankings
-- ---------------------------------------------------------------------------

/-- No word goes on across the cut. -/
def SplitsNoWord (before after : List Char) : Prop :=
  before.getLast?.any continuesWord = false ∨ after.head?.any continuesWord = false

/-- No word goes on across either end of the stretch. -/
structure Severed (kept stretch back : List Char) : Prop where
  start : SplitsNoWord kept (stretch ++ back)
  stop : SplitsNoWord stretch back

/-- What is blanked for a fault is cut off from the words around it. -/
theorem blankingFor?_severed {fault : Nat} (h : blankingFor? text fault = some blanking) :
    ∃ kept stretch back, text = kept ++ (stretch ++ back) ∧
      blanking.apply text = kept ++ (blanked stretch ++ back) ∧ Severed kept stretch back := by
  rcases Option.or_eq_some_iff.1 h with hClause | ⟨-, hLine⟩
  · obtain ⟨front, clause, gap, behind, hFor⟩ := bindingClauseAt?_spec hClause
    obtain ⟨hParts, -, hApply⟩ := hFor.stretch
    refine ⟨front, _, _, hParts, hApply, .inl hFor.lone, .inl ?_⟩
    rw [← List.append_assoc, List.getLast?_concat]
    rfl
  · obtain ⟨kept, line, back, hText, hStart, hStop, hIsLine, -⟩ := filledLineAt?_spec hLine
    have hFeed {c? : Option Char} (h : c?.all (· = '\n') = true) :
        c?.any continuesWord = false := by
      cases c? with
      | none => rfl
      | some c => exact of_decide_eq_true h ▸ rfl
    refine ⟨kept, line, back, hText, ?_, .inl (hFeed hIsLine.1), .inr (hFeed hIsLine.2)⟩
    rw [hText, Blanking.apply_append hStart hStop]

/-- A text of characters of one byte has a character of its own at every byte. -/
theorem exists_charAt_of_thin {cs : List Char} (hThin : ∀ c ∈ cs, c.utf8Size = 1)
    (h : offset < byteLength cs) : ∃ c ∈ cs, CharAt cs offset c := by
  induction cs generalizing offset with
  | nil => simp at h
  | cons d cs ih =>
    have hd : d.utf8Size = 1 := hThin d List.mem_cons_self
    cases offset with
    | zero => exact ⟨d, List.mem_cons_self, [], cs, rfl, rfl⟩
    | succ offset =>
      rw [byteLength_cons] at h
      obtain ⟨c, hMem, hChar⟩ := ih (fun c hc => hThin c (List.mem_cons_of_mem _ hc))
        (show offset < byteLength cs by omega)
      have hShift := hChar.append_left [d]
      rw [byteLength_cons, byteLength_nil, Nat.add_zero, hd, Nat.add_comm] at hShift
      exact ⟨c, List.mem_cons_of_mem _ hMem, hShift⟩

/-- In place of a word that continues all the way stand spaces. -/
theorem mem_blanked_word {word : List Char} (hWord : word.all continuesWord = true)
    (h : c ∈ blanked word) : c = ' ' := by
  induction word with
  | nil => contradiction
  | cons d word ih =>
    rw [List.all_cons, Bool.and_eq_true] at hWord
    rcases List.mem_append.1 h with hHere | hRest
    · rcases mem_blankedChar hHere with rfl | ⟨rfl, rfl | rfl⟩
      · rfl
      · exact absurd hWord.1 (by decide)
      · exact absurd hWord.1 (by decide)
    · exact ih hWord.2 hRest

/-- A word lies in front of a cut that splits no word, or behind it. -/
theorem SplitsNoWord.word_cases {as bs front word behind : List Char} (h : SplitsNoWord as bs)
    (hWord : word.all continuesWord = true) (hText : as ++ bs = front ++ (word ++ behind)) :
    (∃ more, as = front ++ (word ++ more) ∧ behind = more ++ bs) ∨
      ∃ before, front = as ++ before ∧ bs = before ++ (word ++ behind) := by
  have hMem {d : Char} (hd : d ∈ word) : continuesWord d = true := List.all_eq_true.1 hWord d hd
  rcases List.append_eq_append_iff.1 hText with ⟨before, hFront, hBehind⟩ | ⟨left, rfl, hRest⟩
  · exact .inr ⟨before, hFront, hBehind⟩
  rcases List.append_eq_append_iff.1 hRest with ⟨more, rfl, hBehind⟩ | ⟨right, rfl, rfl⟩
  · exact .inl ⟨more, rfl, hBehind⟩
  -- the cut is in the word, so one of the parts of the word is empty
  rcases List.eq_nil_or_concat left with rfl | ⟨left, d, rfl⟩
  · exact .inr ⟨[], by simp, rfl⟩
  cases right with
  | nil => exact .inl ⟨[], by simp, rfl⟩
  | cons e right =>
    have hd : continuesWord d = true := hMem (by simp)
    have he : continuesWord e = true := hMem (by simp)
    rcases h with hLast | hHead
    · rw [List.concat_eq_append, ← List.append_assoc, List.getLast?_concat, Option.any_some,
        hd] at hLast
      contradiction
    · rw [List.cons_append, List.head?_cons, Option.any_some, he] at hHead
      contradiction

/-- A blanking takes a word as a whole or leaves it. -/
theorem Severed.blanks_word {kept stretch back word : List Char} (h : Severed kept stretch back)
    (hWord : word.all continuesWord = true)
    (hAt : WordAt (kept ++ (stretch ++ back)) offset word) :
    WordAt (kept ++ (blanked stretch ++ back)) offset word ∨
      ∀ n, offset ≤ n → n < offset + byteLength word →
        CharAt (kept ++ (blanked stretch ++ back)) n ' ' := by
  obtain ⟨front, behind, hText, rfl⟩ := hAt
  rcases h.start.word_cases hWord hText with ⟨more, rfl, -⟩ | ⟨before, rfl, hInside⟩
  · left
    exact ⟨front, more ++ (blanked stretch ++ back), by simp only [List.append_assoc], rfl⟩
  rcases h.stop.word_cases hWord hInside with ⟨more, rfl, -⟩ | ⟨before, rfl, rfl⟩
  · right
    intro n hStart hStop
    rw [byteLength_append] at hStart hStop
    obtain ⟨m, rfl⟩ : ∃ m, n = byteLength kept + (byteLength before + m) :=
      ⟨n - (byteLength kept + byteLength before), by omega⟩
    have hThin : ∀ d ∈ blanked word, d.utf8Size = 1 := fun d hd => by
      rw [mem_blanked_word hWord hd]
      rfl
    have hLt : m < byteLength (blanked word) := by
      rw [byteLength_blanked]
      omega
    obtain ⟨d, hd, hChar⟩ := exists_charAt_of_thin hThin hLt
    rw [mem_blanked_word hWord hd] at hChar
    rw [blanked_append, blanked_append, ← byteLength_blanked before]
    exact (((hChar.append_right _).append_left _).append_right back).append_left kept
  · left
    refine ⟨kept ++ (blanked stretch ++ before), behind, by simp only [List.append_assoc], ?_⟩
    simp only [byteLength_append, byteLength_blanked]

-- ---------------------------------------------------------------------------
-- What is noted of a call
-- ---------------------------------------------------------------------------

theorem byteLength_require : byteLength "require".toList = 7 := by decide

/-- A blanked clause with its call, in the course of the recovery: the clause is erased, and the
name of the callee stands there as it did or is a row of spaces. -/
structure Uncovered (source text : List Char) (blanking : Blanking) (call : Nat) : Prop
    extends Uncovers source text blanking call where
  erased : ∀ n, blanking.start ≤ n → n < blanking.stop →
    ∃ c, CharAt text n c ∧ (c = ' ' ∨ c = '\n' ∨ c = '\r')
  intact : WordAt text call "require".toList ∨ ∀ n, call ≤ n → n < call + 7 → CharAt text n ' '

/-- A blanking for a binding clause erases the clause and leaves the name of the callee. -/
theorem ClauseFor.uncovered {fault : Nat} {front clause gap behind : List Char}
    (h : ClauseFor text fault blanking front clause gap behind) (hText : Accounted source text)
    (hCall : blanking.call = some call) :
    Uncovered source (blanking.apply text) blanking call := by
  refine ⟨h.uncovers hText hCall (.refl _), fun n hStart hStop => ?_, .inl ?_⟩
  · obtain ⟨-, hLength, hApply⟩ := h.stretch
    rw [h.start] at hStart
    rw [hLength] at hStop
    obtain ⟨m, rfl⟩ : ∃ m, n = byteLength front + m := ⟨n - byteLength front, by omega⟩
    have hThin : ∀ d ∈ blanked ("import".toList ++ (clause ++ ['='])), d.utf8Size = 1 := by
      intro d hd
      rcases mem_blanked hd with rfl | rfl | rfl <;> rfl
    obtain ⟨d, hd, hChar⟩ := exists_charAt_of_thin hThin
      (show m < _ by rw [byteLength_blanked]; omega)
    rw [hApply]
    exact ⟨d, (hChar.append_right _).append_left front, mem_blanked hd⟩
  · obtain ⟨-, hLength, hApply⟩ := h.stretch
    rw [hApply, h.call_eq hCall, hLength]
    refine ⟨front ++ (blanked ("import".toList ++ (clause ++ ['='])) ++ gap), behind, ?_, ?_⟩
    · simp only [List.append_assoc]
    · simp only [byteLength_append, byteLength_blanked, Nat.add_assoc]

/-- What is noted of a call stays true. -/
theorem Uncovered.step {working next : Working} {fault : Nat}
    (h : Uncovered source working.text blanking call) (hStep : working.step? fault = some next) :
    Uncovered source next.text blanking call := by
  have hBlanks := Working.step?_blanks hStep
  refine ⟨⟨h.word, h.opens, h.named, h.sign, h.leads, h.callee, ?_⟩, ?_, ?_⟩
  · intro n c hStart hStop hChar
    rcases hBlanks.charAt hChar with hBefore | hBlank
    · exact h.blank n c hStart hStop hBefore
    · exact hBlank
  · intro n hStart hStop
    obtain ⟨c, hChar, hErased⟩ := h.erased n hStart hStop
    have hInert : blankedChar c = [c] := by rcases hErased with rfl | rfl | rfl <;> decide
    exact ⟨c, hBlanks.charAt_of_inert hInert hChar, hErased⟩
  · rcases h.intact with hWord | hSpaces
    · obtain ⟨made, hMade, rfl⟩ := Option.map_eq_some_iff.1 hStep
      obtain ⟨kept, stretch, back, hText, hApply, hSevered⟩ := blankingFor?_severed hMade
      rw [hText] at hWord
      have hNext := hSevered.blanks_word (by decide) hWord
      rwa [← hApply, byteLength_require] at hNext
    · exact .inr fun n hStart hStop =>
        hBlanks.charAt_of_inert (by decide) (hSpaces n hStart hStop)

/-- A clause that is found in the text lies in front of a clause that has been blanked, or behind
the call of that clause, or around both. -/
theorem Uncovers.apart {fault : Nat} {later : Blanking} {front clause gap behind : List Char}
    (h : Uncovers source text blanking call)
    (hLater : ClauseFor text fault later front clause gap behind) :
    later.stop ≤ blanking.start ∨ call ≤ later.start ∨
      later.start < blanking.start ∧ call < later.stop := by
  have hWord : WordAt text later.start "import".toList :=
    ⟨front, _, hLater.parts, hLater.start.symm⟩
  have hOutside {n : Nat} {d : Char} (hChar : CharAt text n d) (hd : isBlank d = false) :
      n < blanking.start ∨ call ≤ n := by
    by_contra hInside
    rw [h.blank n d (by omega) (by omega) hChar] at hd
    contradiction
  have hStart := hOutside hWord.head (by decide)
  have hSign := hOutside hLater.signAt.1 (by decide)
  have hNamed := h.named
  have hLeads := h.leads
  have hStop := hLater.stop
  have hFront := hLater.start
  omega

-- ---------------------------------------------------------------------------
-- The notes
-- ---------------------------------------------------------------------------

/-- The clauses that the noted calls belong to. No two of them start at the same place, and one
that leads to the call of an earlier one lies in front of the earlier one. -/
structure Booked (source : List Char) (working : Working) (clauses : List Blanking) : Prop where
  calls : clauses.map Blanking.call = working.calls.map some
  uncovered : ∀ blanking ∈ clauses, ∀ call, blanking.call = some call →
    Uncovered source working.text blanking call
  apart : clauses.Pairwise fun earlier later =>
    earlier.start ≠ later.start ∧ (earlier.call = later.call → later.stop ≤ earlier.start)

/-- Every clause that is noted leads to a call. -/
theorem Booked.exists_call {working : Working} {clauses : List Blanking} {blanking : Blanking}
    (h : Booked source working clauses) (hMem : blanking ∈ clauses) :
    ∃ call, blanking.call = some call := by
  have hCalls : blanking.call ∈ working.calls.map some := h.calls ▸ List.mem_map_of_mem hMem
  obtain ⟨call, -, hSome⟩ := List.mem_map.1 hCalls
  exact ⟨call, hSome.symm⟩

/-- A clause that is found lies apart from the clauses that have been noted. -/
theorem Booked.apart_of_clauseFor {working : Working} {clauses : List Blanking} {fault call : Nat}
    {earlier made : Blanking} {front clause gap behind : List Char}
    (h : Booked source working clauses) (hEarlier : earlier ∈ clauses)
    (hClause : ClauseFor working.text fault made front clause gap behind)
    (hCall : made.call = some call) :
    earlier.start ≠ made.start ∧ (earlier.call = made.call → made.stop ≤ earlier.start) := by
  obtain ⟨call', hCall'⟩ := h.exists_call hEarlier
  have hUncovers := (h.uncovered earlier hEarlier call' hCall').toUncovers
  have hApart := hUncovers.apart hClause
  have hNamed := hUncovers.named
  have hLeads := hUncovers.leads
  have hCallOf := hClause.call_eq hCall
  have hStop := hClause.stop
  have hFront := hClause.start
  refine ⟨by omega, fun hSame => ?_⟩
  rw [hCall', hCall] at hSame
  have := Option.some.inj hSame
  omega

/-- A step notes the call of the clause that it blanks, and no other, and so the notes stay in
order. `h` and `hText` are what holds of the text in hand before the step: the calls that have
been noted are in order, and each blank is accounted for. The fault may be any offset. -/
theorem Booked.step {working next : Working} {fault : Nat} {clauses : List Blanking}
    (h : Booked source working clauses) (hText : Accounted source working.text)
    (hStep : working.step? fault = some next) : ∃ clauses', Booked source next clauses' := by
  have hOld : ∀ blanking ∈ clauses, ∀ call, blanking.call = some call →
      Uncovered source next.text blanking call :=
    fun blanking hMem call hCall => (h.uncovered blanking hMem call hCall).step hStep
  obtain ⟨made, hMade, rfl⟩ := Option.map_eq_some_iff.1 hStep
  cases hCall : made.call with
  | none =>
    refine ⟨clauses, ?_, hOld, h.apart⟩
    rw [h.calls, Working.blank, hCall, Option.toList_none, List.append_nil]
  | some call =>
    obtain ⟨front, clause, gap, behind, hClause⟩ :=
      bindingClauseAt?_spec (bindingClauseAt?_of_call hMade hCall)
    refine ⟨clauses ++ [made], ?_, ?_, ?_⟩
    · rw [List.map_append, h.calls, Working.blank, hCall, Option.toList_some, List.map_append]
      simp [hCall]
    · intro blanking hMem call' hCall'
      rcases List.mem_append.1 hMem with hMem | hMem
      · exact hOld blanking hMem call' hCall'
      · obtain rfl := List.mem_singleton.1 hMem
        exact hClause.uncovered hText hCall'
    · refine List.pairwise_append.2 ⟨h.apart, List.pairwise_singleton .., ?_⟩
      intro earlier hEarlier later hLater
      obtain rfl := List.mem_singleton.1 hLater
      exact h.apart_of_clauseFor hEarlier hClause hCall

variable {Tree : Type} {parse : List Char → Except Nat Tree} {n : Nat} {working : Working}

/-- **Notes on calls.** At every attempt the calls that recovery has noted are in order: each
belongs to a binding clause of the source that has been erased by then, the call stands in the
source at the offset that was noted, and no two of the clauses start at one place.

Two clauses may lead to one call. Then the later one lies in front of the earlier one, and the
call is noted twice. `h` says that recovery comes to the attempt; the parser may report any
offsets. -/
theorem attempt?_booked (h : attempt? parse source n = some working) :
    ∃ clauses, Booked source working clauses :=
  (attempt?_induction
    (motive := fun working =>
      Accounted source working.text ∧ ∃ clauses, Booked source working clauses)
    ⟨accounted_refl source, [], rfl, by simp, .nil⟩
    (fun _ _ _ ⟨hText, _, hBooked⟩ hStep => ⟨hText.step hStep, hBooked.step hText hStep⟩) h).2

/-- A comment with the word `import` and one with an equality sign, in front of a binding clause. -/
def commentedClause : List Char :=
  "// import A\nexport // =\nimport \x7bb\x7d = require('x')".toList

/-- The text in which both clauses are blanked. -/
def twiceCalled : Working where
  text := "//         \n           \n             require('x')".toList
  calls := [37, 37]

theorem attempt?_commentedClause :
    attempt? (parseOf "a") commentedClause 2 = some twiceCalled := by
  decide +kernel

/-- The notes are in order behind two blankings that lead to one call. -/
theorem booked_twiceCalled :
    attempt? (parseOf "a") commentedClause 2 = some twiceCalled ∧
      ∃ clauses, Booked commentedClause twiceCalled clauses :=
  ⟨attempt?_commentedClause, attempt?_booked attempt?_commentedClause⟩

/-- Not every call is noted once: what is blanked first may bring an earlier clause up to the
same call, so that the next fault has that clause blanked as well. -/
theorem not_nodup_calls :
    ¬∀ (Tree : Type) (parse : List Char → Except Nat Tree) (source : List Char) (n : Nat)
      (working : Working), attempt? parse source n = some working →
        working.calls.Nodup ∧
          ∀ call ∈ working.calls, ∃ blanking, Uncovered source working.text blanking call := by
  intro h
  have hNodup := (h (List TypeScript.Item) (parseOf "a") commentedClause 2 twiceCalled
    attempt?_commentedClause).1
  exact absurd hNodup (by decide)

end Relocation

import Relocation.Proofs.Text.Searches
import Relocation.Recovery

/-!
# What recovery leaves of a source

The text in hand is the source with some of its characters blanked. Each of these was blanked for
one of two reasons, and the reason can still be told from the text: either its whole line is blank,
or the text is blank up to it from the `import` that starts a binding clause in the source. Nothing
depends on the parser: the invariant holds of every step of the recovery, whatever fault the parser
may report.

## Results

* `Blanks`, `Accounted`: the text as a blanked source, and the reasons for what is blanked;
* `bindingClauseAt?_spec`: what stands around a binding clause that is found;
* `Working.step?_spec`: one step blanks a whole line or a stretch from an `import` on;
* `recover?_accounted`: the text that is parsed in the end is the source, with each blank accounted
  for.
-/

namespace Relocation

open Text

variable {source text text' : List Char} {offset : Nat} {c : Char}

-- ---------------------------------------------------------------------------
-- Blanked characters
-- ---------------------------------------------------------------------------

/-- The text is the source with some characters blanked. -/
inductive Blanks : List Char → List Char → Prop where
  | nil : Blanks [] []
  | keep {source text : List Char} (c : Char) (h : Blanks source text) :
      Blanks (c :: source) (c :: text)
  | blank {source text : List Char} (c : Char) (h : Blanks source text) :
      Blanks (c :: source) (blankedChar c ++ text)

/-- What stands in place of a blanked character. -/
theorem mem_blankedChar {d : Char} (h : d ∈ blankedChar c) :
    d = ' ' ∨ d = c ∧ (c = '\n' ∨ c = '\r') := by
  unfold blankedChar at h
  split at h
  · rename_i hBreak
    exact .inr ⟨List.mem_singleton.1 h, hBreak⟩
  · exact .inl (List.eq_of_mem_replicate h)

theorem isBlank_of_mem_blankedChar {d : Char} (h : d ∈ blankedChar c) : isBlank d = true := by
  rcases mem_blankedChar h with rfl | ⟨rfl, rfl | rfl⟩ <;> decide

/-- Blanked text consists of spaces and line breaks. -/
theorem mem_blanked {cs : List Char} (h : c ∈ blanked cs) : c = ' ' ∨ c = '\n' ∨ c = '\r' := by
  induction cs with
  | nil => contradiction
  | cons d cs ih =>
    rcases List.mem_append.1 h with hHere | hRest
    · rcases mem_blankedChar hHere with rfl | ⟨rfl, hBreak⟩
      · exact .inl rfl
      · exact .inr hBreak
    · exact ih hRest

/-- A character that blanking puts in place is not blanked any further. -/
theorem blankedChar_of_mem {d : Char} (h : d ∈ blankedChar c) : blankedChar d = [d] := by
  rcases mem_blankedChar h with rfl | ⟨rfl, rfl | rfl⟩ <;> decide

namespace Blanks

theorem refl (text : List Char) : Blanks text text := by
  induction text with
  | nil => exact .nil
  | cons c cs ih => exact .keep c ih

theorem append {a a' b b' : List Char} (h : Blanks a a') (h' : Blanks b b') :
    Blanks (a ++ b) (a' ++ b') := by
  induction h with
  | nil => exact h'
  | keep c _ ih => exact .keep c ih
  | blank c _ ih =>
    rw [List.append_assoc]
    exact .blank c ih

theorem blanked_self (text : List Char) : Blanks text (blanked text) := by
  induction text with
  | nil => exact .nil
  | cons c cs ih => exact .blank c ih

/-- Blanking keeps every offset. -/
theorem byteLength_eq (h : Blanks source text) : byteLength text = byteLength source := by
  induction h with
  | nil => rfl
  | keep c _ ih => simp [ih]
  | blank c _ ih => simp [ih, byteLength_blankedChar]

/-- Nothing is left over only of nothing. -/
theorem eq_nil (h : Blanks source []) : source = [] :=
  eq_nil_of_byteLength_eq_zero h.byteLength_eq.symm

/-- The parts of a source are blanked each by itself. -/
theorem cut {a b : List Char} (h : Blanks (a ++ b) text) :
    ∃ a' b', text = a' ++ b' ∧ Blanks a a' ∧ Blanks b b' := by
  induction a generalizing text with
  | nil => exact ⟨[], text, rfl, .nil, h⟩
  | cons c a ih =>
    cases h with
    | keep _ h =>
      obtain ⟨a', b', rfl, ha, hb⟩ := ih h
      exact ⟨c :: a', b', rfl, .keep c ha, hb⟩
    | blank _ h =>
      obtain ⟨a', b', rfl, ha, hb⟩ := ih h
      exact ⟨blankedChar c ++ a', b', by rw [List.append_assoc], .blank c ha, hb⟩

/-- What stands in place of blanked text is not blanked any further. -/
theorem eq_of_blankedChar (h : Blanks (blankedChar c) text) : text = blankedChar c := by
  have hAll : ∀ {a : List Char} {text}, (∀ d ∈ a, blankedChar d = [d]) → Blanks a text →
      text = a := by
    intro a text ha h
    induction h with
    | nil => rfl
    | keep d _ ih => rw [ih fun e he => ha e (List.mem_cons_of_mem _ he)]
    | blank d _ ih =>
      rw [ih fun e he => ha e (List.mem_cons_of_mem _ he), ha d List.mem_cons_self]
      rfl
  exact hAll (fun d => blankedChar_of_mem) h

/-- Blanking again blanks the source. -/
theorem trans (h : Blanks source text) (h' : Blanks text text') : Blanks source text' := by
  induction h generalizing text' with
  | nil => exact h'
  | keep c _ ih =>
    cases h' with
    | keep _ h' => exact .keep c (ih h')
    | blank _ h' => exact .blank c (ih h')
  | blank c _ ih =>
    obtain ⟨a', b', rfl, ha, hb⟩ := h'.cut
    rw [ha.eq_of_blankedChar]
    exact .blank c (ih hb)

/-- What is not blank in the text stands in the source. -/
theorem charAt (h : Blanks source text) (hChar : CharAt text offset c) :
    CharAt source offset c ∨ isBlank c = true := by
  induction h generalizing offset with
  | nil => exact .inl hChar
  | @keep source text d h ih =>
    rcases (show CharAt ([d] ++ text) offset c from hChar).of_append with hHere | ⟨m, rfl, hRest⟩
    · exact .inl (hHere.append_right source)
    · exact (ih hRest).imp_left fun hSource => hSource.append_left [d]
  | @blank source text d h ih =>
    rcases hChar.of_append with hHere | ⟨m, rfl, hRest⟩
    · exact .inr (isBlank_of_mem_blankedChar hHere.mem)
    · refine (ih hRest).imp_left fun hSource => ?_
      rw [byteLength_blankedChar]
      exact hSource.append_left [d]

/-- Blanking keeps the characters that blanking puts in place. -/
theorem charAt_of_inert (h : Blanks source text) (hInert : blankedChar c = [c])
    (hChar : CharAt source offset c) : CharAt text offset c := by
  obtain ⟨front, behind, rfl, rfl⟩ := hChar
  obtain ⟨front', rest, rfl, hFront, hRest⟩ := h.cut
  refine ⟨front', ?_⟩
  rw [hFront.byteLength_eq]
  cases hRest with
  | keep _ h => exact ⟨_, rfl, rfl⟩
  | @blank _ behind' _ h => exact ⟨behind', by rw [hInert]; rfl, rfl⟩

/-- Where the text has a character that is not blank, the source is cut as the text is. -/
theorem cut_at {a b : List Char} (h : Blanks source (a ++ c :: b)) (hc : isBlank c = false) :
    ∃ a₀ b₀, source = a₀ ++ c :: b₀ ∧ Blanks a₀ a ∧ Blanks b₀ b := by
  generalize hText : a ++ c :: b = text at h
  induction h generalizing a with
  | nil => simp at hText
  | @keep source text d h ih =>
    cases a with
    | nil =>
      obtain ⟨rfl, rfl⟩ := List.cons.inj hText
      exact ⟨[], source, rfl, .nil, h⟩
    | cons e a =>
      obtain ⟨rfl, hRest⟩ := List.cons.inj hText
      obtain ⟨a₀, b₀, rfl, ha, hb⟩ := ih hRest
      exact ⟨e :: a₀, b₀, rfl, .keep e ha, hb⟩
  | @blank source text d h ih =>
    rcases List.append_eq_append_iff.1 hText with ⟨more, hSpaces, hRest⟩ | ⟨more, rfl, hRest⟩
    · -- the character would be one of those that blanking puts in place
      cases more with
      | nil =>
        rw [List.append_nil] at hSpaces
        obtain ⟨a₀, b₀, rfl, ha, hb⟩ := ih (a := []) hRest
        obtain rfl := ha.eq_nil
        exact ⟨[d], b₀, rfl, by simpa [hSpaces] using Blanks.blank d .nil, hb⟩
      | cons e more =>
        obtain ⟨rfl, -⟩ := List.cons.inj hRest
        have hMem : c ∈ blankedChar d := by rw [hSpaces]; simp
        rw [isBlank_of_mem_blankedChar hMem] at hc
        contradiction
    · obtain ⟨a₀, b₀, rfl, ha, hb⟩ := ih hRest.symm
      exact ⟨d :: a₀, b₀, rfl, .blank d ha, hb⟩

/-- A word without blanks at the start of the text is at the start of the source. -/
theorem of_word {word rest : List Char} (h : Blanks source (word ++ rest))
    (hWord : ∀ c ∈ word, isBlank c = false) :
    ∃ rest₀, source = word ++ rest₀ ∧ Blanks rest₀ rest := by
  induction word generalizing source with
  | nil => exact ⟨source, rfl, h⟩
  | cons c word ih =>
    obtain ⟨front, rest₀, rfl, hFront, hRest⟩ := h.cut_at (a := []) (hWord c List.mem_cons_self)
    obtain rfl := hFront.eq_nil
    obtain ⟨rest₁, rfl, hRest₁⟩ := ih hRest fun d hd => hWord d (List.mem_cons_of_mem _ hd)
    exact ⟨rest₁, rfl, hRest₁⟩

/-- A word without blanks stands in the source where it stands in the text. -/
theorem wordAt {word : List Char} (h : Blanks source text) (hAt : WordAt text offset word)
    (hNil : word ≠ []) (hWord : ∀ c ∈ word, isBlank c = false) : WordAt source offset word := by
  obtain ⟨c, word, rfl⟩ := List.exists_cons_of_ne_nil hNil
  obtain ⟨front, behind, rfl, rfl⟩ := hAt
  obtain ⟨front₀, rest₀, rfl, hFront, hRest⟩ := h.cut_at (hWord c List.mem_cons_self)
  obtain ⟨behind₀, rfl, -⟩ := hRest.of_word fun d hd => hWord d (List.mem_cons_of_mem _ hd)
  exact ⟨front₀, behind₀, rfl, hFront.byteLength_eq.symm⟩

/-- A text that is blank stays so. -/
theorem allBlank (h : Blanks source text) (hBlank : allBlank source = true) :
    Text.allBlank text = true := by
  rw [Text.allBlank, List.all_eq_true] at hBlank ⊢
  induction h with
  | nil => exact hBlank
  | keep c _ ih =>
    intro d hd
    rcases List.mem_cons.1 hd with rfl | hd
    · exact hBlank d List.mem_cons_self
    · exact ih (fun e he => hBlank e (List.mem_cons_of_mem _ he)) d hd
  | blank c _ ih =>
    intro d hd
    rcases List.mem_append.1 hd with hd | hd
    · exact isBlank_of_mem_blankedChar hd
    · exact ih (fun e he => hBlank e (List.mem_cons_of_mem _ he)) d hd

/-- Where the source starts with a line feed, so does the text. -/
theorem of_lineFeed (h : Blanks ('\n' :: source) text) :
    ∃ rest, text = '\n' :: rest ∧ Blanks source rest := by
  cases h with
  | keep _ h => exact ⟨_, rfl, h⟩
  | blank _ h => exact ⟨_, rfl, h⟩

/-- A text agrees with a front part of its source, or there is a first character that is blanked. -/
theorem agree_or {front behind : List Char} (h : Blanks (front ++ behind) text) :
    (∃ rest, text = front ++ rest ∧ Blanks behind rest) ∨
      ∃ a c b rest, front = a ++ c :: b ∧ text = a ++ ' ' :: rest ∧ c ≠ ' ' := by
  induction front generalizing text with
  | nil => exact .inl ⟨text, rfl, h⟩
  | cons c front ih =>
    by_cases hKept : ∃ rest, text = c :: rest ∧ Blanks (front ++ behind) rest
    · obtain ⟨rest, rfl, hRest⟩ := hKept
      rcases ih hRest with ⟨rest, rfl, hBehind⟩ | ⟨a, d, b, rest, rfl, rfl, hd⟩
      · exact .inl ⟨rest, rfl, hBehind⟩
      · exact .inr ⟨c :: a, d, b, rest, rfl, rfl, hd⟩
    · right
      cases h with
      | keep _ h => exact absurd ⟨_, rfl, h⟩ hKept
      | @blank _ text _ h =>
        have hPos := Char.utf8Size_pos c
        have hBreak : ¬(c = '\n' ∨ c = '\r') := fun hBreak =>
          hKept ⟨text, by simp [blankedChar, hBreak], h⟩
        obtain ⟨n, hn⟩ : ∃ n, c.utf8Size = n + 1 := ⟨c.utf8Size - 1, by omega⟩
        have hSpaces : blankedChar c = ' ' :: List.replicate n ' ' := by
          rw [blankedChar, if_neg hBreak, hn, List.replicate_succ]
        refine ⟨[], c, front, List.replicate n ' ' ++ text, rfl, by rw [hSpaces]; rfl, ?_⟩
        rintro rfl
        exact hKept ⟨text, by simp [blankedChar, show ' '.utf8Size = 1 from rfl], h⟩

end Blanks

-- ---------------------------------------------------------------------------
-- Reasons
-- ---------------------------------------------------------------------------

/-- Between the two parts lies a line, or several. -/
def IsLine (above below : List Char) : Prop :=
  (above.getLast?.all (· = '\n')) = true ∧ (below.head?.all (· = '\n')) = true

/-- The line of the offset is blank. -/
def OnBlankLine (text : List Char) (offset : Nat) : Prop :=
  ∃ above line below, text = above ++ (line ++ below) ∧ IsLine above below ∧
    allBlank line = true ∧ byteLength above ≤ offset ∧
    offset < byteLength above + byteLength line

/-- What is not blank stands in front of a blank line, unless it stands behind the line. -/
theorem Text.CharAt.of_blankLine {above line below : List Char}
    (h : CharAt (above ++ (line ++ below)) offset c) (hc : isBlank c = false)
    (hLine : allBlank line = true) (hLt : offset < byteLength above + byteLength line) :
    CharAt above offset c := by
  rcases h.of_append with hAbove | ⟨n, rfl, hRest⟩
  · exact hAbove
  rcases hRest.of_append with hHere | ⟨m, rfl, -⟩
  · rw [List.all_eq_true.1 hLine c hHere.mem] at hc
    contradiction
  · omega

/-- From an `import` of the source up to the offset the text is blank, and the `import` does not
go on with a word in front of it. -/
def BehindWord (source text : List Char) (offset : Nat) : Prop :=
  ∃ start, WordAt source start "import".toList ∧ start ≤ offset ∧
    (∀ n c, start ≤ n → n ≤ offset → CharAt text n c → isBlank c = true) ∧
    ∀ n c, CharAt text n c → n + c.utf8Size = start → continuesWord c = false

/-- The text is the source but for what is blanked for one of the two reasons. -/
structure Accounted (source text : List Char) : Prop where
  blanks : Blanks source text
  reason : ∀ offset c, CharAt source offset c →
    CharAt text offset c ∨ OnBlankLine text offset ∨ BehindWord source text offset

theorem accounted_refl (source : List Char) : Accounted source source :=
  ⟨.refl source, fun _ _ h => .inl h⟩

theorem IsLine.blanks {above below above' below' : List Char} (h : IsLine above below)
    (hAbove : Blanks above above') (hBelow : Blanks below below') : IsLine above' below' := by
  constructor
  · cases hLast : above.getLast? with
    | none =>
      obtain rfl := List.getLast?_eq_none_iff.1 hLast
      cases hAbove
      rfl
    | some c =>
      have hc := h.1
      rw [hLast, Option.all_some, decide_eq_true_eq] at hc
      subst hc
      obtain ⟨front, rfl⟩ := List.getLast?_eq_some_iff.1 hLast
      obtain ⟨front', last, rfl, -, hFeed⟩ := hAbove.cut
      obtain ⟨rest, rfl, hRest⟩ := hFeed.of_lineFeed
      cases hRest
      simp
  · cases below with
    | nil =>
      cases hBelow
      rfl
    | cons c below =>
      have hc := h.2
      rw [List.head?_cons, Option.all_some, decide_eq_true_eq] at hc
      subst hc
      obtain ⟨rest, rfl, -⟩ := hBelow.of_lineFeed
      rfl

/-- A blank line stays blank. -/
theorem OnBlankLine.blanks (h : OnBlankLine text offset) (hBlanks : Blanks text text') :
    OnBlankLine text' offset := by
  obtain ⟨above, line, below, rfl, hLine, hBlank, hStart, hStop⟩ := h
  obtain ⟨above', rest, rfl, hAbove, hRest⟩ := hBlanks.cut
  obtain ⟨line', below', rfl, hLine', hBelow⟩ := hRest.cut
  refine ⟨above', line', below', rfl, hLine.blanks hAbove hBelow, hLine'.allBlank hBlank, ?_, ?_⟩
  · rwa [hAbove.byteLength_eq]
  · rwa [hAbove.byteLength_eq, hLine'.byteLength_eq]

/-- A character that continues a word is a dollar sign, or it lies between the digits and the
letters. -/
theorem bounds_of_continuesWord (h : continuesWord c = true) :
    c.toNat = 0x24 ∨ 0x30 ≤ c.toNat ∧ c.toNat ≤ 0x7a := by
  have hDef : continuesWord c = (decide (c.val ≥ 65 ∧ c.val ≤ 90)
      || decide (c.val ≥ 97) && decide (c.val ≤ 122) || decide (c.val ≥ 48) && decide (c.val ≤ 57)
      || c == '_' || c == '$') := rfl
  simp only [hDef, Bool.or_eq_true, Bool.and_eq_true, decide_eq_true_eq, beq_iff_eq, ge_iff_le,
    UInt32.le_iff_toNat_le] at h
  simp only [Char.toNat]
  rcases h with (((hUpper | hLower) | hDigit) | rfl) | rfl
  all_goals simp_all <;> omega

/-- A character that continues a word is not blank. -/
theorem continuesWord_of_isBlank (h : isBlank c = true) : continuesWord c = false := by
  by_contra hWord
  rw [Bool.not_eq_false] at hWord
  have hBounds := bounds_of_continuesWord hWord
  simp only [isBlank, Bool.or_eq_true, Bool.and_eq_true, decide_eq_true_eq, beq_iff_eq] at h
  omega

theorem BehindWord.blanks (h : BehindWord source text offset) (hBlanks : Blanks text text') :
    BehindWord source text' offset := by
  obtain ⟨start, hWord, hStart, hBlank, hLone⟩ := h
  refine ⟨start, hWord, hStart, ?_, ?_⟩
  · intro n c hn hn' hChar
    rcases hBlanks.charAt hChar with hChar | hc
    · exact hBlank n c hn hn' hChar
    · exact hc
  · intro n c hChar hStop
    rcases hBlanks.charAt hChar with hChar | hc
    · exact hLone n c hChar hStop
    · exact continuesWord_of_isBlank hc

theorem isBlank_of_mem_import : ∀ c ∈ "import".toList, isBlank c = false := by
  have hAll : ("import".toList.all fun c => !isBlank c) = true := by decide
  exact fun c hc => by simpa using List.all_eq_true.1 hAll c hc

/-- Behind the part that is kept, the stretch starts with a word `import` of its own. -/
def OpensClause (kept stretch : List Char) : Prop :=
  (kept.getLast?.any continuesWord) = false ∧ ∃ more, stretch = "import".toList ++ more

/-- No character in front of the clause continues a word. -/
theorem OpensClause.lone {kept stretch rest : List Char} {n : Nat} (h : OpensClause kept stretch)
    (hChar : CharAt (kept ++ rest) n c) (hStop : n + c.utf8Size = byteLength kept) :
    continuesWord c = false := by
  have hPos := Char.utf8Size_pos c
  rcases hChar.of_append with ⟨front, behind, rfl, rfl⟩ | ⟨m, rfl, -⟩
  · rw [byteLength_append, byteLength_cons] at hStop
    obtain rfl : behind = [] := eq_nil_of_byteLength_eq_zero (by omega)
    have hLast := h.1
    rwa [List.getLast?_concat, Option.any_some] at hLast
  · omega

/-- What is blanked from an `import` on is blank on account of this word. The word was not blank so
far, so it is a word of the source. -/
theorem OpensClause.behindWord {kept stretch back : List Char} {n : Nat}
    (hBlanks : Blanks source (kept ++ (stretch ++ back))) (h : OpensClause kept stretch)
    (hLt : n < byteLength stretch) :
    BehindWord source (kept ++ (blanked stretch ++ back)) (byteLength kept + n) := by
  obtain ⟨more, hMore⟩ := h.2
  have hText : WordAt (kept ++ (stretch ++ back)) (byteLength kept) "import".toList :=
    ⟨kept, more ++ back, by rw [hMore, List.append_assoc], rfl⟩
  have hWord : WordAt source (byteLength kept) "import".toList :=
    hBlanks.wordAt hText (by decide) isBlank_of_mem_import
  refine ⟨byteLength kept, hWord, Nat.le_add_right _ _, ?_, fun m d hChar hStop =>
    h.lone hChar hStop⟩
  intro m d hm hm' hChar
  rcases hChar.of_append with hKept | ⟨k, rfl, hRest⟩
  · have := hKept.lt
    omega
  rcases hRest.of_append with hHere | ⟨j, rfl, -⟩
  · exact isBlank_of_mem_blanked hHere.mem
  · rw [byteLength_blanked] at hm'
    omega

/-- A line that is blanked is blank. -/
theorem IsLine.onBlankLine {kept stretch back : List Char} {n : Nat} (h : IsLine kept back)
    (hLt : n < byteLength stretch) :
    OnBlankLine (kept ++ (blanked stretch ++ back)) (byteLength kept + n) := by
  refine ⟨kept, blanked stretch, back, rfl, h, ?_, Nat.le_add_right _ _, ?_⟩
  · exact List.all_eq_true.2 fun d hd => isBlank_of_mem_blanked hd
  · rw [byteLength_blanked]
    omega

/-- What is accounted for stays so when a whole line is blanked, or a stretch from an `import` on.
-/
theorem Accounted.blank {kept stretch back : List Char}
    (h : Accounted source (kept ++ (stretch ++ back)))
    (hReason : OpensClause kept stretch ∨ IsLine kept back) :
    Accounted source (kept ++ (blanked stretch ++ back)) := by
  have hBlanks : Blanks (kept ++ (stretch ++ back)) (kept ++ (blanked stretch ++ back)) :=
    .append (.refl kept) (.append (.blanked_self stretch) (.refl back))
  refine ⟨h.blanks.trans hBlanks, fun offset c hSource => ?_⟩
  rcases h.reason offset c hSource with hChar | hLine | hWord
  · rcases hChar.of_append with hKept | ⟨n, rfl, hRest⟩
    · exact .inl (hKept.append_right _)
    rcases hRest.of_append with hStretch | ⟨m, rfl, hBack⟩
    · rcases hReason with hOpens | hLine
      · exact .inr (.inr (hOpens.behindWord h.blanks hStretch.lt))
      · exact .inr (.inl (hLine.onBlankLine hStretch.lt))
    · left
      have hKept := (hBack.append_left (blanked stretch)).append_left kept
      rwa [byteLength_blanked] at hKept
  · exact .inr (.inl (hLine.blanks hBlanks))
  · exact .inr (.inr (hWord.blanks hBlanks))

-- ---------------------------------------------------------------------------
-- The steps of the recovery
-- ---------------------------------------------------------------------------

/-- A blanking that names a stretch blanks it. -/
theorem Blanking.apply_append {kept stretch back : List Char} {blanking : Blanking}
    (hStart : blanking.start = byteLength kept)
    (hStop : blanking.stop = byteLength kept + byteLength stretch) :
    blanking.apply (kept ++ (stretch ++ back)) = kept ++ (blanked stretch ++ back) := by
  have hCut : cutAt? (kept ++ (stretch ++ back)) blanking.stop = some (kept ++ stretch, back) :=
    cutAt?_eq_some_iff.2 ⟨by simp, by rw [hStop, byteLength_append]⟩
  have hCut' : cutAt? (kept ++ stretch) blanking.start = some (kept, stretch) :=
    cutAt?_eq_some_iff.2 ⟨rfl, hStart.symm⟩
  simp only [apply, hCut, hCut', List.append_assoc]

/-- A binding clause of the text that is found for the fault and is to be blanked: the word
`import`, the clause, an equality sign and a gap, and behind them a call of `require`. -/
structure ClauseFor (text : List Char) (fault : Nat) (blanking : Blanking)
    (front clause gap behind : List Char) : Prop where
  parts : text =
    front ++ ("import".toList ++ (clause ++ '=' :: (gap ++ ("require".toList ++ behind))))
  lone : (front.getLast?.any continuesWord) = false
  opens : ((clause ++ ['=']).head?.any startsClause) = true
  named : isClause clause = true
  sign : '=' ∉ clause
  spaced : allBlank gap = true
  called : (dropBlank behind).head? = some '('
  start : blanking.start = byteLength front
  stop : blanking.stop = byteLength front + 6 + byteLength clause + 1
  call : blanking.call = some (byteLength front + 6 + byteLength clause + 1 + byteLength gap)
  fault_ge : byteLength front + 6 ≤ fault
  fault_le : fault ≤ byteLength front + 6 + byteLength clause + 1 + byteLength gap

/-- A text starts with a call of `require` if an opening parenthesis follows the word. -/
theorem afterCallee?_eq_some_iff {behind : List Char} :
    afterCallee? text = some behind ↔
      text = "require".toList ++ behind ∧ (dropBlank behind).head? = some '(' := by
  rw [@eq_comm _ text, ← List.isPrefixOf?_eq_some_iff_append_eq, afterCallee?]
  cases "require".toList.isPrefixOf? text with
  | none => simp
  | some rest =>
    simp only [Option.ite_none_right_eq_some, Option.some.injEq]
    constructor
    · rintro ⟨hCalled, rfl⟩
      exact ⟨rfl, hCalled⟩
    · rintro ⟨rfl, hCalled⟩
      exact ⟨hCalled, rfl⟩

/-- What a clause starts with does not depend on what follows its sign. -/
theorem head?_append_sign (clause value : List Char) :
    (clause ++ '=' :: value).head? = (clause ++ ['=']).head? := by
  cases clause <;> rfl

/-- A blanking for a binding clause goes from the last `import` in front of the fault up to the
equality sign, and leads to the call behind it. -/
theorem bindingClauseAt?_found {fault : Nat} {blanking : Blanking}
    (h : bindingClauseAt? text fault = some blanking) :
    isBoundary text fault = true ∧
      (∀ n, WordAt text n "import".toList → n + 6 ≤ fault → n ≤ blanking.start) ∧
        ∃ front clause gap behind, ClauseFor text fault blanking front clause gap behind := by
  -- the search has cut the text four times, and each of its tests has been passed
  unfold bindingClauseAt? at h
  obtain ⟨⟨before, after⟩, hCut, h⟩ := Option.bind_eq_some_iff.1 h
  obtain ⟨⟨front, inside⟩, hWord, h⟩ := Option.bind_eq_some_iff.1 h
  dsimp only at h
  split at h
  · contradiction
  rename_i hLone
  split at h
  · contradiction
  rename_i hOpens
  obtain ⟨⟨clause, value⟩, hSign, h⟩ := Option.bind_eq_some_iff.1 h
  dsimp only at h
  split at h
  · contradiction
  split at h
  · contradiction
  rename_i hClause
  split at h
  · contradiction
  rename_i hFault
  obtain ⟨behind, hCallee, h⟩ := Option.bind_eq_some_iff.1 h
  obtain rfl := Option.some.inj h
  -- what the cuts and the tests say of the text
  obtain ⟨rfl, hBefore⟩ := cutAt?_eq_some_iff.1 hCut
  obtain rfl := eq_append_of_splitAtLast? hWord
  obtain ⟨hBehind, hNoSign⟩ := splitAtFirst?_singleton_iff.1 hSign
  obtain ⟨hRequire, hCalled⟩ := afterCallee?_eq_some_iff.1 hCallee
  -- put together, the parts make up the text, and no later `import` ends in front of the fault
  have hValue : value = value.takeWhile isBlank ++ dropBlank value :=
    List.takeWhile_append_dropWhile.symm
  have hParts : front ++ "import".toList ++ inside ++ after
      = front ++ ("import".toList ++ (clause ++ '=' ::
          (value.takeWhile isBlank ++ ("require".toList ++ behind)))) := by
    rw [← hRequire, ← hValue, List.append_assoc, List.append_assoc, hBehind]
  have hLast : ∀ n, WordAt (front ++ "import".toList ++ inside ++ after) n "import".toList →
      n + 6 ≤ fault → n ≤ byteLength front := by
    intro n hAt hLe
    exact le_of_splitAtLast? hWord (hAt.of_append (by rwa [hBefore, byteLength_import]))
  -- what is left are the start of the clause and the offsets
  refine ⟨isBoundary_iff.2 ⟨_, _, rfl, hBefore⟩, hLast, front, clause, value.takeWhile isBlank,
    behind, hParts, by simpa using hLone, ?_, by simpa using hClause, hNoSign, List.all_takeWhile,
    hCalled, rfl, ?_, ?_, ?_, ?_⟩
  · rw [hBehind, head?_append_sign] at hOpens
    simpa using hOpens
  · rw [byteLength_import]
  · rw [byteLength_import]
  · simp only [byteLength_append, byteLength_import] at hBefore
    omega
  · rw [byteLength_import] at hFault
    omega

theorem bindingClauseAt?_spec {fault : Nat} {blanking : Blanking}
    (h : bindingClauseAt? text fault = some blanking) :
    ∃ front clause gap behind, ClauseFor text fault blanking front clause gap behind :=
  (bindingClauseAt?_found h).2.2

/-- The stretch that is blanked runs from the word through the sign. -/
theorem ClauseFor.stretch {fault : Nat} {blanking : Blanking} {front clause gap behind : List Char}
    (h : ClauseFor text fault blanking front clause gap behind) :
    let stretch := "import".toList ++ (clause ++ ['='])
    let back := gap ++ ("require".toList ++ behind)
    text = front ++ (stretch ++ back) ∧
      blanking.stop = byteLength front + byteLength stretch ∧
      blanking.apply text = front ++ (blanked stretch ++ back) := by
  intro stretch back
  have hSign : byteLength ['='] = 1 := by decide
  have hParts : text = front ++ (stretch ++ back) := by
    rw [h.parts]
    simp only [stretch, back, List.append_assoc, List.cons_append, List.nil_append]
  have hLength : blanking.stop = byteLength front + byteLength stretch := by
    rw [h.stop, byteLength_append, byteLength_append, byteLength_import, hSign]
    omega
  refine ⟨hParts, hLength, ?_⟩
  rw [hParts, Blanking.apply_append h.start hLength]

theorem filledLine?_of_some {before above head : List Char}
    (h : splitAtLast? ['\n'] before = some (above, head)) (after : List Char) :
    let line := head ++ after.takeWhile (· != '\n')
    filledLine? before after = if allBlank line then filledLine? above ['\n']
      else some ⟨byteLength above + 1, byteLength above + 1 + byteLength line, none⟩ := by
  rw [filledLine?]
  split
  · rename_i hSplit
    obtain ⟨rfl, rfl⟩ := Prod.mk.inj (Option.some.inj (hSplit.symm.trans h))
    rfl
  · rename_i hSplit
    rw [hSplit] at h
    contradiction

theorem filledLine?_of_none {before : List Char} (h : splitAtLast? ['\n'] before = none)
    (after : List Char) :
    let line := before ++ after.takeWhile (· != '\n')
    filledLine? before after = if allBlank line then none else some ⟨0, byteLength line, none⟩ := by
  rw [filledLine?]
  split
  · rename_i hSplit
    rw [hSplit] at h
    contradiction
  · rfl

/-- A line goes up to the next line feed, or to the end of the text. -/
theorem isLine_dropWhile (above : List Char) (hAbove : (above.getLast?.all (· = '\n')) = true)
    (after : List Char) :
    IsLine above (after.dropWhile (· != '\n')) ∧
      (after.dropWhile (· != '\n') = [] → '\n' ∉ after) := by
  rcases dropWhile_ne_cases '\n' after with ⟨hNil, hFeed⟩ | ⟨rest, hRest⟩
  · rw [hNil]
    exact ⟨⟨hAbove, rfl⟩, fun _ => hFeed⟩
  · rw [hRest]
    exact ⟨⟨hAbove, rfl⟩, fun hNil => absurd hNil (List.cons_ne_nil _ _)⟩

/-- A line that a line feed ends stays one, whatever follows the text. -/
theorem IsLine.append_right {above below : List Char} (h : IsLine above below) (hNe : below ≠ [])
    (more : List Char) : IsLine above (below ++ more) := by
  cases below with
  | nil => exact absurd rfl hNe
  | cons c below => exact h

/-- The line that is blanked is a line of the text, and was not blank. -/
theorem filledLine?_spec {before after : List Char} {blanking : Blanking}
    (h : filledLine? before after = some blanking) :
    ∃ kept line back, before ++ after = kept ++ (line ++ back) ∧
      blanking.start = byteLength kept ∧ blanking.stop = byteLength kept + byteLength line ∧
      IsLine kept back ∧ allBlank line = false ∧ (back = [] → '\n' ∉ after) := by
  -- the induction is on what stands in front, which gets shorter by a line with each step up
  induction hLength : before.length using Nat.strongRecOn generalizing before after with
  | _ n ih =>
    subst hLength
    have hFeed : '\n'.utf8Size = 1 := rfl
    have hAfter : after.takeWhile (· != '\n') ++ after.dropWhile (· != '\n') = after :=
      List.takeWhile_append_dropWhile
    cases hSplit : splitAtLast? ['\n'] before with
    | some parts =>
      obtain ⟨above, head⟩ := parts
      rw [filledLine?_of_some hSplit] at h
      obtain rfl := eq_append_of_splitAtLast? hSplit
      split at h
      -- the line is blank: one above it is found, and its line feed is in front of the rest
      · obtain ⟨kept, line, back, hText, hStart, hStop, hLine, hFilled, hBack⟩ :=
          ih above.length (by simp) h rfl
        have hNe : back ≠ [] := fun hNil => hBack hNil List.mem_cons_self
        refine ⟨kept, line, back ++ (head ++ after), ?_, hStart, hStop, hLine.append_right hNe _,
          hFilled, fun hNil => absurd (List.append_eq_nil_iff.1 hNil).1 hNe⟩
        calc above ++ ['\n'] ++ head ++ after
            = (above ++ ['\n']) ++ (head ++ after) := List.append_assoc _ _ _
          _ = (kept ++ (line ++ back)) ++ (head ++ after) := by rw [hText]
          _ = kept ++ (line ++ (back ++ (head ++ after))) := by simp only [List.append_assoc]
      -- the line itself is found, from the line feed above it to its own
      · rename_i hFilled
        obtain rfl := Option.some.inj h
        obtain ⟨hLine, hLast⟩ := isLine_dropWhile (above ++ ['\n']) (by simp) after
        have hText : above ++ ['\n'] ++ head ++ after = (above ++ ['\n'])
            ++ ((head ++ after.takeWhile (· != '\n')) ++ after.dropWhile (· != '\n')) := by
          rw [List.append_assoc head, hAfter, List.append_assoc (above ++ ['\n'])]
        exact ⟨_, _, _, hText, by simp [hFeed], by simp [hFeed], hLine, by simpa using hFilled,
          hLast⟩
    -- the first line has none above it
    | none =>
      rw [filledLine?_of_none hSplit] at h
      split at h
      · contradiction
      · rename_i hFilled
        obtain rfl := Option.some.inj h
        obtain ⟨hLine, hLast⟩ := isLine_dropWhile [] rfl after
        have hText : before ++ after = []
            ++ ((before ++ after.takeWhile (· != '\n')) ++ after.dropWhile (· != '\n')) := by
          rw [List.nil_append, List.append_assoc, hAfter]
        exact ⟨_, _, _, hText, rfl, (Nat.zero_add _).symm, hLine, by simpa using hFilled, hLast⟩

/-- The line that is found at an offset is a line of the text, and is not blank. -/
theorem filledLineAt?_spec {blanking : Blanking} (h : filledLineAt? text offset = some blanking) :
    ∃ kept line back, text = kept ++ (line ++ back) ∧
      blanking.start = byteLength kept ∧ blanking.stop = byteLength kept + byteLength line ∧
      IsLine kept back ∧ allBlank line = false := by
  unfold filledLineAt? at h
  split at h
  · rename_i before after hCut
    obtain ⟨hParts, -⟩ := cutAt?_eq_some_iff.1 hCut
    obtain ⟨kept, line, back, hText, hStart, hStop, hIsLine, hFilled, -⟩ := filledLine?_spec h
    exact ⟨kept, line, back, hParts.trans hText, hStart, hStop, hIsLine, hFilled⟩
  · contradiction

/-- What is found for a fault is a stretch from an `import` on or else, wherever it is looked for, a
whole line of the text. It is not blank in any case. -/
theorem found_spec {fault : Nat} {blanking : Blanking}
    (h : (bindingClauseAt? text fault).or (filledLineAt? text offset) = some blanking) :
    ∃ kept stretch back, text = kept ++ (stretch ++ back) ∧
      blanking.start = byteLength kept ∧
      blanking.stop = byteLength kept + byteLength stretch ∧
      (OpensClause kept stretch ∨ IsLine kept back) ∧ allBlank stretch = false := by
  rcases Option.or_eq_some_iff.1 h with hClause | ⟨-, hLine⟩
  · obtain ⟨front, clause, gap, behind, hFor⟩ := bindingClauseAt?_spec hClause
    obtain ⟨hParts, hStop, -⟩ := hFor.stretch
    exact ⟨front, _, _, hParts, hFor.start, hStop, .inl ⟨hFor.lone, _, rfl⟩, rfl⟩
  · obtain ⟨kept, line, back, hText, hStart, hStop, hIsLine, hFilled⟩ := filledLineAt?_spec hLine
    exact ⟨kept, line, back, hText, hStart, hStop, .inr hIsLine, hFilled⟩

/-- A step of the recovery blanks a whole line, or a stretch from an `import` on. -/
theorem Working.step?_spec {working next : Working} {fault : Nat}
    (h : working.step? fault = some next) :
    ∃ kept stretch back, working.text = kept ++ (stretch ++ back) ∧
      next.text = kept ++ (blanked stretch ++ back) ∧
      (OpensClause kept stretch ∨ IsLine kept back) := by
  obtain ⟨blanking, hFor, rfl⟩ := Option.map_eq_some_iff.1 h
  obtain ⟨kept, stretch, back, hText, hStart, hStop, hReason, -⟩ := found_spec hFor
  refine ⟨kept, stretch, back, hText, ?_, hReason⟩
  show blanking.apply working.text = _
  rw [hText, Blanking.apply_append hStart hStop]

theorem Accounted.step {working next : Working} {fault : Nat}
    (h : Accounted source working.text) (hStep : working.step? fault = some next) :
    Accounted source next.text := by
  obtain ⟨kept, stretch, back, hText, hNext, hReason⟩ := Working.step?_spec hStep
  rw [hNext]
  exact (hText ▸ h).blank hReason

-- ---------------------------------------------------------------------------
-- The whole recovery
-- ---------------------------------------------------------------------------

variable {Tree : Type} {parse : List Char → Except Nat Tree} {recovered : Recovered Tree}

/-- What every step of the recovery keeps holds in the end, and the end is a text that parses. -/
theorem recoverWithin_induction {motive : Working → Prop}
    (hStep : ∀ working fault next, motive working → working.step? fault = some next → motive next)
    {blankings : Nat} {working : Working} (h : motive working)
    (hRun : recoverWithin parse blankings working = some recovered) :
    motive recovered.working ∧ parse recovered.working.text = .ok recovered.tree := by
  induction blankings generalizing working with
  | zero =>
    unfold recoverWithin at hRun
    split at hRun
    · rename_i tree hParse
      obtain rfl := Option.some.inj hRun
      exact ⟨h, hParse⟩
    · contradiction
  | succ blankings ih =>
    unfold recoverWithin at hRun
    split at hRun
    · rename_i tree hParse
      obtain rfl := Option.some.inj hRun
      exact ⟨h, hParse⟩
    · rename_i fault _
      dsimp only at hRun
      split at hRun
      · rename_i next hNext
        exact ih (hStep working fault next h hNext) hRun
      · contradiction

/-- The text that is parsed in the end is the source, with each blank accounted for. -/
theorem recover?_accounted (h : recover? parse source = some recovered) :
    Accounted source recovered.working.text ∧
      parse recovered.working.text = .ok recovered.tree :=
  recoverWithin_induction (motive := fun working => Accounted source working.text)
    (fun _ _ _ hWorking hStep => hWorking.step hStep) (accounted_refl source) h

end Relocation

import Relocation.Proofs.Blanked
import Relocation.Proofs.Scanner.Lexemes

/-!
# Literals and the source

A literal is found in the text that recovery leaves, and it counts as spelled by the source if the
source has the same quote at both ends of it, with the value spelled between the two. If that is
so, then recovery has not touched the literal: no blank in place of a letter leaves a literal with
the value that it had. A blank line ends a literal, and in any other case the first character that
is lost is an `i`, which a space does not spell.

## Results

* `Spelled`: a value spelled between quotes;
* `Accounted.lost`: what is lost first behind a quote;
* `Accounted.spelled_iff`: a literal is as it was if and only if the source spells it.
-/

namespace Relocation

open Text TypeScript

-- ---------------------------------------------------------------------------
-- Spelled values
-- ---------------------------------------------------------------------------

/-- The text spells the value from `start` to `stop`: the given quote, an inside that is read as
the value, and the same quote, which closes it. -/
def SpelledBy (quote : Char) (text : List Char) (start stop : Nat) (value : String) : Prop :=
  ∃ front raw behind, text = front ++ quote :: (raw ++ quote :: behind) ∧
    byteLength front = start ∧ start + byteLength raw + 2 = stop ∧
    Body.read quote (raw ++ quote :: behind) = ⟨raw, value.toList, .closed, behind⟩

/-- The text spells the value from `start` to `stop`, between quotes of one kind. -/
def Spelled (text : List Char) (start stop : Nat) (value : String) : Prop :=
  ∃ quote, IsQuote quote ∧ SpelledBy quote text start stop value

/-- Two texts agree from `start` to `stop`. -/
def Agrees (text text' : List Char) (start stop : Nat) : Prop :=
  ∃ front stretch behind front' behind', text = front ++ (stretch ++ behind) ∧
    text' = front' ++ (stretch ++ behind') ∧ byteLength front = start ∧
    byteLength front' = start ∧ start + byteLength stretch = stop

variable {source text : List Char} {start stop : Nat} {value : String}

/-- What is spelled depends on the stretch alone. -/
theorem Spelled.of_agrees (h : Spelled text start stop value)
    (hAgrees : Agrees source text start stop) : Spelled source start stop value := by
  obtain ⟨quote, hQuote, front, raw, behind, rfl, rfl, rfl, hRead⟩ := h
  obtain ⟨front', stretch, behind', front₀, behind₀, rfl, hText, hFront', hFront, hLength⟩ :=
    hAgrees
  have hThin := hQuote.utf8Size
  obtain ⟨rfl, hRest⟩ := append_inj_of_byteLength hText hFront.symm
  have hParts : (quote :: (raw ++ [quote])) ++ behind = stretch ++ behind₀ := by
    simpa using hRest
  obtain ⟨rfl, -⟩ := append_inj_of_byteLength hParts (by simp [hThin]; omega)
  refine ⟨quote, hQuote, front', raw, behind', by simp, hFront', rfl, ?_⟩
  obtain ⟨-, hInside⟩ := (Body.read_eq_closed_iff hQuote).1 hRead
  exact (Body.read_eq_closed_iff hQuote).2 ⟨rfl, hInside⟩

/-- The first character of what is spelled is a quote. -/
theorem Spelled.charAt (h : Spelled text start stop value) :
    ∃ quote, IsQuote quote ∧ CharAt text start quote := by
  obtain ⟨quote, hQuote, front, raw, behind, rfl, rfl, -⟩ := h
  exact ⟨quote, hQuote, front, _, rfl, rfl⟩

-- ---------------------------------------------------------------------------
-- Blank lines in literals
-- ---------------------------------------------------------------------------

/-- The start of a blank line, and of what is below it, is blank up to the end of the line. -/
theorem allBlank_takeWhile {line below front behind : List Char}
    (hEnd : (below.head?.all (· = '\n')) = true) (hBlank : allBlank line = true)
    (h : line ++ below = front ++ behind) : allBlank (front.takeWhile (· ≠ '\n')) = true := by
  rw [allBlank, List.all_eq_true] at hBlank ⊢
  rcases List.append_eq_append_iff.1 h with ⟨more, rfl, hBelow⟩ | ⟨more, rfl, -⟩
  · intro c hc
    cases more with
    | nil => exact hBlank c (by simpa using (List.takeWhile_prefix _).subset hc)
    | cons d more =>
      -- what is below starts with a line feed
      obtain rfl : d = '\n' := by simpa [hBelow] using hEnd
      rw [List.takeWhile_append] at hc
      split at hc
      · rw [List.takeWhile_cons_of_neg (by simp), List.append_nil] at hc
        exact hBlank c hc
      · exact hBlank c ((List.takeWhile_prefix _).subset hc)
  · exact fun c hc => hBlank c (List.mem_append_left _ ((List.takeWhile_prefix _).subset hc))

/-- The first two characters of a blank line and what is below it are blank. -/
theorem brace_not_mem_take {line below front behind : List Char}
    (hEnd : (below.head?.all (· = '\n')) = true) (hBlank : allBlank line = true)
    (hNe : line ≠ []) (h : line ++ below = front ++ behind) : '}' ∉ front.take 2 := by
  intro hMem
  have hMem : '}' ∈ (line ++ below).take 2 := by
    rw [h, List.take_append]
    exact List.mem_append_left _ hMem
  have hBrace : isBlank '}' = false := by decide
  rw [allBlank, List.all_eq_true] at hBlank
  have hNot : '}' ∉ line := fun hMem => by simpa [hBrace] using hBlank _ hMem
  obtain ⟨c, more, rfl⟩ := List.exists_cons_of_ne_nil hNe
  cases more with
  | cons d line =>
    refine hNot ?_
    simp at hMem ⊢
    tauto
  | nil =>
    cases below with
    | nil => exact hNot (by simpa using hMem)
    | cons d below =>
      obtain rfl : d = '\n' := by simpa using hEnd
      simp at hMem hNot
      exact hNot hMem

/-- If a literal goes on behind a line feed with a blank line, and another one that starts alike has
the same value, then the first one ends in the blank line, and no later than the other one. -/
theorem of_blankLine_behind {quote : Char} {next next' : Option Char}
    {front more raw value line below behind : List Char}
    (h : Inside quote next (front ++ '\n' :: more) value)
    (h' : Inside quote next' (front ++ '\n' :: raw) value)
    (hEnd : (below.head?.all (· = '\n')) = true) (hBlank : allBlank line = true)
    (hNe : line ≠ []) (hBelow : line ++ below = more ++ behind) :
    (∀ c ∈ more, c ≠ '\n') ∧ byteLength more ≤ byteLength raw := by
  obtain ⟨shared, rest, rest', hValue, hValue', hMore, hRaw⟩ :=
    h.split_lineFeed (brace_not_mem_take hEnd hBlank hNe hBelow) h'
  obtain ⟨rfl, hWhole⟩ := hMore.of_blankLine (allBlank_takeWhile hEnd hBlank hBelow)
  obtain rfl : rest = rest' := List.append_cancel_left (hValue.symm.trans hValue')
  constructor
  · have hAll := List.all_eq_true.1 (List.all_takeWhile (p := (· ≠ '\n')) (l := rest))
    rw [hWhole] at hAll
    simpa using hAll
  · rcases hRaw.length_le with rfl | hLt <;> omega

/-- The quote that closes a literal does not stand in a blank line. -/
theorem not_quote_of_blankLine {quote : Char} {line below more behind : List Char}
    (hQuote : IsQuote quote) (hEnd : (below.head?.all (· = '\n')) = true)
    (hBlank : allBlank line = true) (hBelow : line ++ below = more ++ quote :: behind)
    (hMore : ∀ c ∈ more, c ≠ '\n') : False := by
  have hParts : line ++ below = (more ++ [quote]) ++ behind := by simpa using hBelow
  have hLine := allBlank_takeWhile hEnd hBlank hParts
  have hFeed : quote ≠ '\n' := (Body.ne_of_isQuote hQuote).2.1.symm
  rw [List.takeWhile_append_of_pos (by simpa using hMore),
    List.takeWhile_cons_of_pos (by simpa using hFeed)] at hLine
  have hQuoteBlank : isBlank quote = true := List.all_eq_true.1 hLine quote (by simp)
  rw [hQuote.not_blank] at hQuoteBlank
  contradiction

-- ---------------------------------------------------------------------------
-- Literals that the source spells
-- ---------------------------------------------------------------------------

theorem ordinary_i {quote : Char} (hQuote : IsQuote quote) : Inside.Ordinary quote 'i' := by
  rcases hQuote with rfl | rfl <;>
    exact ⟨by decide, by decide, by decide, by decide⟩

theorem ordinary_space {quote : Char} (hQuote : IsQuote quote) : Inside.Ordinary quote ' ' := by
  rcases hQuote with rfl | rfl <;>
    exact ⟨by decide, by decide, by decide, by decide⟩

/-- A blank line that holds what follows a front part behind a quote starts behind a line feed in
that part. -/
theorem OnBlankLine.behind_quote {quote : Char} {front same rest : List Char}
    (h : OnBlankLine (front ++ quote :: (same ++ rest)) (byteLength (front ++ quote :: same)))
    (hQuote : IsQuote quote) :
    ∃ start more line below, same = start ++ '\n' :: more ∧ line ++ below = more ++ rest ∧
      (below.head?.all (· = '\n')) = true ∧ allBlank line = true ∧ line ≠ [] := by
  obtain ⟨above, line, below, hParts, hIsLine, hBlank, hLe, hLt⟩ := h
  have hThin := hQuote.utf8Size
  simp only [byteLength_append, byteLength_cons, hThin] at hLe hLt
  -- the quote is not blank, so the line starts behind it
  have hQuoteAt : CharAt (above ++ (line ++ below)) (byteLength front) quote :=
    ⟨front, _, hParts.symm, rfl⟩
  have hAbove := (hQuoteAt.of_blankLine hQuote.not_blank hBlank (by omega)).lt
  have hCut : (front ++ [quote]) ++ (same ++ rest) = above ++ (line ++ below) := by
    simpa using hParts
  obtain ⟨passed, rfl, hRest⟩ := eq_append_of_le hCut (by simp [hThin]; omega)
  obtain ⟨more, rfl, hBelow⟩ := eq_append_of_le hRest.symm (by simp [hThin] at hLe; omega)
  have hNe : line ≠ [] := by
    rintro rfl
    simp only [byteLength_append, byteLength_cons, byteLength_nil, hThin] at hLt
    omega
  -- and it starts behind a line feed
  rcases List.eq_nil_or_concat passed with rfl | ⟨start, last, rfl⟩
  · have hFeed : quote = '\n' := by simpa using hIsLine.1
    exact absurd hFeed.symm (Body.ne_of_isQuote hQuote).2.1
  · obtain rfl : last = '\n' := by
      have hLast := hIsLine.1
      rw [List.concat_eq_append, ← List.append_assoc, List.getLast?_concat] at hLast
      simpa using hLast
    exact ⟨start, more, line, below, by simp, hBelow, hIsLine.2, hBlank, hNe⟩

/-- If the first character that is lost behind a quote is blank on account of a word, then the word
starts with it. -/
theorem BehindWord.behind_quote {quote c : Char} {front front' same lost rest : List Char}
    (h : BehindWord (front ++ quote :: (same ++ c :: lost)) (front' ++ quote :: (same ++ rest))
      (byteLength (front ++ quote :: same)))
    (hQuote : IsQuote quote) (hFront : byteLength front' = byteLength front) : c = 'i' := by
  obtain ⟨start, hImport, hLe, hAll, -⟩ := h
  -- what is blank starts behind the quote
  have hBehind : byteLength front < start := by
    by_contra hNot
    have hQuoteBlank := hAll _ quote (by omega) (by simp) ⟨front', _, rfl, hFront⟩
    rw [hQuote.not_blank] at hQuoteBlank
    contradiction
  have hSource : front ++ quote :: (same ++ c :: lost) = (front ++ quote :: same) ++ c :: lost := by
    simp
  have hWord : CharAt ((front ++ quote :: same) ++ c :: lost) start 'i' := hSource ▸ hImport.head
  rcases hWord.of_append with hSame | ⟨k, rfl, -⟩
  · -- and it does not start in what the texts share, where the word would not be blank
    rcases hSame.of_append with hFront' | ⟨m, rfl, hHere⟩
    · have := hFront'.lt
      omega
    · have hTextWord : CharAt (front' ++ quote :: (same ++ rest)) (byteLength front + m) 'i' := by
        rw [← hFront]
        exact (hHere.append_right rest).append_left front'
      have hLetter : isBlank 'i' = true := hAll _ 'i' (Nat.le_refl _) hLe hTextWord
      exact absurd hLetter (by decide)
  · obtain rfl : k = 0 := by omega
    have hHere : CharAt ((front ++ quote :: same) ++ c :: lost)
        (byteLength (front ++ quote :: same)) c := ⟨_, lost, rfl, rfl⟩
    exact hHere.unique hWord

/-- The first character that is lost behind a quote is an `i`, or the line that it stood in is
blank. `hSource` and `hText` tell the two texts apart at that character, with as much in front of
the quote in both of them (`hFront`), and `hLost` says that the source had no space there. What
is blanked starts at a word `import` or at a line, and a quote is in front. -/
theorem Accounted.lost {quote c : Char} {front front' same lost rest : List Char}
    (h : Accounted source text) (hQuote : IsQuote quote)
    (hSource : source = front ++ quote :: (same ++ c :: lost))
    (hText : text = front' ++ quote :: (same ++ ' ' :: rest))
    (hFront : byteLength front' = byteLength front) (hLost : c ≠ ' ') :
    c = 'i' ∨ ∃ start more line below, same = start ++ '\n' :: more ∧
      line ++ below = more ++ ' ' :: rest ∧ (below.head?.all (· = '\n')) = true ∧
      allBlank line = true ∧ line ≠ [] := by
  subst hSource hText
  have hPlace : byteLength (front' ++ quote :: same) = byteLength (front ++ quote :: same) := by
    simp [hFront]
  rcases h.reason (byteLength (front ++ quote :: same)) c ⟨_, lost, by simp, rfl⟩ with
    hKept | hLine | hWord
  · exact absurd (hKept.unique ⟨_, rest, by simp, hPlace⟩) hLost
  · rw [← hPlace] at hLine
    exact .inr (hLine.behind_quote hQuote)
  · exact .inl (hWord.behind_quote hQuote hFront)

/-- A literal with a space in place of an `i` has another value. -/
theorem not_of_lost_i {quote : Char} {next : Option Char}
    {raw same lost raw' behind' rest value : List Char} (hQuote : IsQuote quote)
    (hSame : raw ++ [quote] = same ++ 'i' :: lost) (hInside : Inside quote (some quote) raw value)
    (hRest : same ++ ' ' :: rest = raw' ++ behind') (hInside' : Inside quote next raw' value)
    (hLength : byteLength raw ≤ byteLength raw') : False := by
  have hThin := hQuote.utf8Size
  have hLetter : 'i'.utf8Size = 1 := rfl
  have hShort : byteLength same < byteLength raw := by
    cases lost with
    | nil =>
      obtain ⟨-, hLast⟩ := List.append_inj' hSame rfl
      obtain rfl : quote = 'i' := by simpa using hLast
      rcases hQuote with hEq | hEq <;> exact absurd hEq (by decide)
    | cons d lost =>
      have hLengths := congrArg byteLength hSame
      have := Char.utf8Size_pos d
      simp only [byteLength_append, byteLength_cons, byteLength_nil] at hLengths
      omega
  obtain ⟨more, rfl, -⟩ := eq_append_cons_of_lt hSame hShort
  obtain ⟨more', rfl, -⟩ := eq_append_cons_of_lt hRest.symm (by omega)
  exact Inside.value_ne (ordinary_i hQuote) (ordinary_space hQuote) (by decide) hInside hInside' rfl

/-- A literal that runs into a blank line is not closed there, and it is no longer than one that
has something else in place of that line. -/
theorem not_of_lost_line {quote c : Char} {next : Option Char}
    {raw start more line below lost raw' behind' rest value : List Char} (hQuote : IsQuote quote)
    (hSame : raw ++ [quote] = (start ++ '\n' :: more) ++ c :: lost)
    (hInside : Inside quote (some quote) raw value)
    (hRest : (start ++ '\n' :: more) ++ ' ' :: rest = raw' ++ behind')
    (hInside' : Inside quote next raw' value) (hLength : byteLength raw ≤ byteLength raw')
    (hBelow : line ++ below = more ++ ' ' :: rest)
    (hEnd : (below.head?.all (· = '\n')) = true) (hBlank : allBlank line = true) (hNe : line ≠ []) :
    behind'.head? ≠ some quote ∧ byteLength raw' ≤ byteLength raw := by
  have hFeed : '\n'.utf8Size = 1 := rfl
  have hShort : byteLength start < byteLength raw := by
    have hLengths := congrArg byteLength hSame
    have := Char.utf8Size_pos c
    simp only [byteLength_append, byteLength_cons, byteLength_nil, hQuote.utf8Size, hFeed]
      at hLengths
    omega
  rw [List.append_assoc] at hSame hRest
  obtain ⟨raw, rfl, -⟩ := eq_append_cons_of_lt hSame hShort
  obtain ⟨raw', rfl, hMore⟩ := eq_append_cons_of_lt hRest.symm (by omega)
  have hLine : line ++ below = raw' ++ behind' := hBelow.trans hMore
  obtain ⟨hNoFeed, hLe⟩ := of_blankLine_behind hInside' hInside hEnd hBlank hNe hLine
  constructor
  · intro hHead
    obtain ⟨behind', rfl⟩ := List.head?_eq_some_iff.1 hHead
    exact not_quote_of_blankLine hQuote hEnd hBlank hLine hNoFeed
  · simp only [byteLength_append, byteLength_cons]
    omega

/-- A literal that the source spells is as it was. -/
theorem Accounted.kept {quote : Char} {front front' raw behind rest : List Char}
    (h : Accounted source text) (hQuote : IsQuote quote)
    (hSource : source = front ++ quote :: (raw ++ quote :: behind))
    (hInside : Inside quote (some quote) raw value.toList)
    (hText : text = front' ++ quote :: rest) (hFront : byteLength front' = byteLength front)
    (hToken : StringToken (quote :: rest) (byteLength raw + 2) value) :
    ∃ behind', rest = raw ++ quote :: behind' := by
  -- as much stands in front in both texts, so what is behind is blanked by itself
  have hAfter : Blanks ((quote :: (raw ++ [quote])) ++ behind) (quote :: rest) := by
    have hBlanks : Blanks (front ++ ((quote :: (raw ++ [quote])) ++ behind)) text := by
      simpa [← hSource] using h.blanks
    obtain ⟨front₀, rest₀, hText₀, hFront₀, hRest₀⟩ := hBlanks.cut
    obtain ⟨rfl, rfl⟩ := append_inj_of_byteLength (hText₀.symm.trans hText)
      (hFront₀.byteLength_eq.trans hFront.symm)
    exact hRest₀
  -- they agree up to the closing quote, or a character is lost on the way
  rcases hAfter.agree_or with ⟨behind', hAgree, -⟩ | ⟨same, c, lost, rest', hFirst, hFirst', hLost⟩
  · exact ⟨behind', by simpa using hAgree⟩
  -- the opening quote is not lost, since it is there in the text
  cases same with
  | nil =>
    obtain ⟨rfl, -⟩ := List.cons.inj hFirst'
    exact absurd hQuote.not_blank (by decide)
  | cons d same =>
    obtain ⟨rfl, hSame⟩ := List.cons.inj hFirst
    obtain ⟨-, rfl⟩ := List.cons.inj hFirst'
    have hWhole : raw ++ quote :: behind = same ++ c :: (lost ++ behind) := by
      simpa using congrArg (· ++ behind) hSame
    have hReason := h.lost hQuote (by rw [hSource, hWhole]) hText hFront hLost
    -- neither reason leaves a literal with the same value in as many bytes
    have hNot {raw' behind' : List Char} {next : Option Char}
        (hRest : same ++ ' ' :: rest' = raw' ++ behind')
        (hInside' : Inside quote next raw' value.toList)
        (hLength : byteLength raw ≤ byteLength raw') :
        behind'.head? ≠ some quote ∧ byteLength raw' ≤ byteLength raw := by
      rcases hReason with rfl | ⟨start, more, line, below, rfl, hBelow, hEnd, hBlank, hNe⟩
      · exact (not_of_lost_i hQuote hSame hInside hRest hInside' hLength).elim
      · exact not_of_lost_line hQuote hSame hInside hRest hInside' hLength hBelow hEnd hBlank hNe
    rcases hToken.of_quote hQuote with ⟨raw', behind', hRest, hLength, hInside'⟩ |
      ⟨raw', behind', hRest, hLength, hInside'⟩ | ⟨behind', hRest, hLength⟩
    · exact absurd rfl (hNot hRest hInside' (by omega)).1
    · have := (hNot hRest hInside' (by omega)).2
      omega
    · -- the value of an attribute is its own spelling, and so the same as the other one
      rcases hInside.length_le with hValue | hShort
      · exact ⟨behind', by rw [hRest, hValue]⟩
      · omega

/-- A literal is as it was in the source if and only if the source spells it. The one direction
is plain. For the other, recovery could turn one literal into another with the same value: it
blanks words `import` with what follows and whole lines, and neither leaves a literal with the
same value in as many bytes.

`h` says that each blank of the text is accounted for, and `hString` that the literal is a string
token of the text. -/
theorem Accounted.spelled_iff {start stop : Nat} (h : Accounted source text)
    (hString : StringAt text start stop value) :
    Spelled source start stop value ↔
      Spelled text start stop value ∧ Agrees source text start stop := by
  constructor
  · rintro ⟨quote, hQuote, front, raw, behind, hSource, rfl, hStop, hRead⟩
    obtain ⟨rest, length, ⟨front', hText, hFront⟩, hToken, rfl⟩ := hString
    obtain ⟨c, cs, rfl, hc⟩ := hToken.head_not_blank
    obtain ⟨-, hInside⟩ := (Body.read_eq_closed_iff hQuote).1 hRead
    have hFront : byteLength front' = byteLength front := by omega
    -- the first character of the token is not blank, so it is the quote
    obtain rfl : c = quote := by
      have hChar : CharAt source (byteLength front) c :=
        (h.blanks.charAt ⟨front', cs, hText, hFront⟩).resolve_right (by simp [hc])
      exact hChar.unique ⟨front, _, hSource, rfl⟩
    obtain rfl : length = byteLength raw + 2 := by omega
    obtain ⟨behind', rfl⟩ := h.kept hQuote hSource hInside hText hFront hToken
    have hThin := hQuote.utf8Size
    refine ⟨⟨c, hQuote, front', raw, behind', hText, hFront, by omega,
      (Body.read_eq_closed_iff hQuote).2 ⟨rfl, hInside⟩⟩, ?_⟩
    exact ⟨front, c :: (raw ++ [c]), behind, front', behind', by simp [hSource], by simp [hText],
      rfl, hFront, by simp [hThin]; omega⟩
  · exact fun ⟨hSpelled, hAgrees⟩ => hSpelled.of_agrees hAgrees

end Relocation

import Relocation.Proofs.Lexicon
import Relocation.Proofs.Overwritten
import Relocation.Proofs.Spans

/-!
# Literals that recovery blanks

If a source had to be blanked, then each of its imports has the range of a token of the source. Only
the ranges are held against each other, so the import need not have the text of that token: where a
literal runs over several lines, or holds the word `import`, recovery can blank it from within, and
the literal that is left may still end where the one in the source ends. These are the only ways. If
the token of an import lies in one line and does not hold the word, then the import has been read
from text of the source.

## Results

* `Accounted.agrees_or_lostInside`: how a stretch of text that is not blank at its start can differ
  from the source;
* `agrees_importsOf_iff`: when an import has been read from text of the source;
* `agrees_importsOf_of_plain`: imports that always have.
-/

namespace Relocation

open Text TypeScript

variable {source text : List Char} {start stop offset : Nat} {c : Char}

-- ---------------------------------------------------------------------------
-- Characters that are lost
-- ---------------------------------------------------------------------------

/-- The text does not have the character that the source has at the offset. -/
def Lost (source text : List Char) (offset : Nat) : Prop :=
  ∃ c, CharAt source offset c ∧ ¬CharAt text offset c

/-- The offset lies in a blank line that starts behind `start`. -/
def OnBlankLineBehind (text : List Char) (start offset : Nat) : Prop :=
  ∃ above line below, text = above ++ (line ++ below) ∧ IsLine above below ∧
    allBlank line = true ∧ start < byteLength above ∧ byteLength above ≤ offset ∧
    offset < byteLength above + byteLength line

/-- Between the two offsets a character is lost, where the source has the word `import` or in a line
that is all blank. -/
def LostInside (source text : List Char) (start stop : Nat) : Prop :=
  ∃ offset, start < offset ∧ offset < stop ∧ Lost source text offset ∧
    (WordAt source offset "import".toList ∨ OnBlankLineBehind text start offset)

/-- The first character of a text is that of its source, or a space in place of another one. -/
theorem Blanks.of_cons {d : Char} (h : Blanks source (d :: text)) :
    (∃ rest, source = d :: rest ∧ Blanks rest text) ∨
      ∃ c rest, source = c :: rest ∧ c ≠ ' ' ∧ d = ' ' := by
  generalize hText : d :: text = whole at h
  cases h with
  | nil => contradiction
  | keep c h =>
    obtain ⟨rfl, rfl⟩ := List.cons.inj hText
    exact .inl ⟨_, rfl, h⟩
  | @blank source rest c h =>
    by_cases hSame : blankedChar c = [c]
    · rw [hSame] at hText
      obtain ⟨rfl, rfl⟩ := List.cons.inj hText
      exact .inl ⟨source, rfl, h⟩
    · right
      refine ⟨c, source, rfl, ?_, ?_⟩
      · rintro rfl
        exact hSame (by decide)
      · cases hFront : blankedChar c with
        | nil =>
          have hLength := byteLength_blankedChar c
          have hPos := Char.utf8Size_pos c
          rw [hFront, byteLength_nil] at hLength
          omega
        | cons e more =>
          rw [hFront] at hText
          obtain ⟨rfl, -⟩ := List.cons.inj hText
          rcases mem_blankedChar (c := c) (d := d) (by simp [hFront]) with hSpace | ⟨rfl, hBreak⟩
          · exact hSpace
          · exact absurd (if_pos hBreak) hSame

/-- A text is the front of its source, or there is a first character that is blanked. -/
theorem Blanks.front_or {front behind : List Char} (h : Blanks source (front ++ behind)) :
    (∃ rest, source = front ++ rest) ∨
      ∃ same c lost more, source = same ++ c :: lost ∧ front = same ++ ' ' :: more ∧ c ≠ ' ' := by
  induction front generalizing source with
  | nil => exact .inl ⟨source, rfl⟩
  | cons d front ih =>
    rcases (show Blanks source (d :: (front ++ behind)) from h).of_cons with
      ⟨rest, rfl, hRest⟩ | ⟨c, rest, rfl, hc, rfl⟩
    · rcases ih hRest with ⟨rest, rfl⟩ | ⟨same, c, lost, more, rfl, rfl, hc⟩
      · exact .inl ⟨rest, rfl⟩
      · exact .inr ⟨d :: same, c, lost, more, rfl, rfl, hc⟩
    · exact .inr ⟨[], c, rest, front, rfl, rfl, hc⟩

/-- Where two texts agree, they have the same characters. -/
theorem Agrees.charAt (h : Agrees source text start stop) (hStart : start ≤ offset)
    (hStop : offset < stop) (hChar : CharAt source offset c) : CharAt text offset c := by
  obtain ⟨front, stretch, behind, front', behind', rfl, rfl, rfl, hFront, hLength⟩ := h
  rcases hChar.of_append with hBefore | ⟨n, rfl, hRest⟩
  · have := hBefore.lt
    omega
  rcases hRest.of_append with hHere | ⟨m, rfl, -⟩
  · rw [← hFront]
    exact (hHere.append_right behind').append_left front'
  · omega

theorem Agrees.not_lostInside (h : Agrees source text start stop) :
    ¬LostInside source text start stop := by
  rintro ⟨offset, hStart, hStop, ⟨c, hSource, hNot⟩, -⟩
  exact hNot (h.charAt (Nat.le_of_lt hStart) hStop hSource)

/-- A character that is lost behind one that is not blank was lost with an `import`, or with a line
that starts between the two. -/
theorem Accounted.reason_behind {d : Char} (h : Accounted source text)
    (hd : CharAt text start d) (hBlank : isBlank d = false) (hLt : start < offset)
    (hSource : CharAt source offset c) (hNot : ¬CharAt text offset c) :
    ∃ lost, start < lost ∧ lost ≤ offset ∧ Lost source text lost ∧
      (WordAt source lost "import".toList ∨ OnBlankLineBehind text start lost) := by
  rcases h.reason offset c hSource with hKept | hLine | hWord
  · contradiction
  · refine ⟨offset, hLt, Nat.le_refl _, ⟨c, hSource, hNot⟩, .inr ?_⟩
    obtain ⟨above, line, below, rfl, hIsLine, hAll, hLe, hEnd⟩ := hLine
    have hAbove : CharAt above start d := hd.of_blankLine hBlank hAll (by omega)
    exact ⟨above, line, below, rfl, hIsLine, hAll, hAbove.lt, hLe, hEnd⟩
  · obtain ⟨word, hWord, hLe, hAll, -⟩ := hWord
    have hBehind : start < word := by
      by_contra hNot
      have hTrue := hAll start d (by omega) (Nat.le_of_lt hLt) hd
      rw [hBlank] at hTrue
      contradiction
    refine ⟨word, hBehind, hLe, ⟨'i', hWord.head, fun hChar => ?_⟩, .inl hWord⟩
    have hLetter : isBlank 'i' = false := by decide
    rw [hAll word 'i' (Nat.le_refl _) hLe hChar] at hLetter
    contradiction

/-- A stretch of the text is as it was in the source, or a character within it is lost. `h` says
that each blank of the text is accounted for, and `hc` that the stretch starts with a character
that is not blank, so that what is blanked starts inside the stretch and not in front of it. -/
theorem Accounted.agrees_or_lostInside {front stretch behind : List Char}
    (h : Accounted source text) (hText : text = front ++ (c :: stretch ++ behind))
    (hc : isBlank c = false) (hStart : byteLength front = start)
    (hStop : start + byteLength (c :: stretch) = stop) :
    Agrees source text start stop ∨ LostInside source text start stop := by
  obtain ⟨front₀, rest₀, rfl, hFront, hRest⟩ :=
    (hText ▸ h.blanks : Blanks source (front ++ c :: (stretch ++ behind))).cut_at hc
  have hAfter : Blanks (c :: rest₀) ((c :: stretch) ++ behind) := .keep c hRest
  have hFront₀ := hFront.byteLength_eq
  rcases hAfter.front_or with ⟨rest, hSame⟩ | ⟨same, d, lost, more, hSource, hStretch, hd⟩
  · left
    exact ⟨front₀, c :: stretch, rest, front, behind, by rw [hSame], hText, by omega, hStart, hStop⟩
  · right
    have hSame : same ≠ [] := by
      rintro rfl
      obtain ⟨rfl, -⟩ := List.cons.inj hStretch
      contradiction
    have hPos : 0 < byteLength same := by
      by_contra hZero
      exact hSame (eq_nil_of_byteLength_eq_zero (by omega))
    have hSpace : ' '.utf8Size = 1 := rfl
    have hEnd : byteLength (c :: stretch) = byteLength same + (1 + byteLength more) := by
      rw [hStretch, byteLength_append, byteLength_cons, hSpace]
    have hOpens : CharAt text start c := ⟨front, stretch ++ behind, hText, hStart⟩
    have hLost : CharAt (front₀ ++ c :: rest₀) (start + byteLength same) d :=
      ⟨front₀ ++ same, lost, by rw [hSource, List.append_assoc],
        by rw [byteLength_append]; omega⟩
    have hBlanked : CharAt text (start + byteLength same) ' ' := by
      refine ⟨front ++ same, more ++ behind, ?_, by rw [byteLength_append, hStart]⟩
      rw [hText, hStretch]
      simp only [List.append_assoc, List.cons_append]
    obtain ⟨offset, hBehind, hLe, hGone, hReason⟩ :=
      h.reason_behind hOpens hc (Nat.lt_add_of_pos_right hPos) hLost
        fun hKept => hd (hKept.unique hBlanked)
    exact ⟨offset, hBehind, by omega, hGone, hReason⟩

-- ---------------------------------------------------------------------------
-- Imports
-- ---------------------------------------------------------------------------

/-- A string token is cut out of its text. -/
theorem TypeScript.StringToken.cut {rest : List Char} {length : Nat} {value : String}
    (h : StringToken rest length value) :
    ∃ stretch behind, rest = stretch ++ behind ∧ byteLength stretch = length := by
  induction h with
  | @closed quote raw value behind hQuote _ =>
    exact ⟨quote :: (raw ++ [quote]), behind, by simp, by simp [hQuote.utf8Size]; omega⟩
  | @unclosed quote raw value behind hQuote _ _ =>
    exact ⟨quote :: raw, behind, rfl, by simp [hQuote.utf8Size]; omega⟩
  | @attributeValue quote raw behind hQuote _ =>
    exact ⟨quote :: (raw ++ [quote]), behind, by simp, by simp [hQuote.utf8Size]; omega⟩
  | @behindMark mark passed _ _ _ _ _ ih =>
    obtain ⟨stretch, behind, rfl, rfl⟩ := ih
    exact ⟨mark.toList ++ (passed ++ stretch), behind, by simp, by simp; omega⟩

/-- A string token is as it was in the source if and only if nothing in it is lost. -/
theorem Accounted.agrees_iff {value : String} (h : Accounted source text)
    (hString : StringAt text start stop value) :
    Agrees source text start stop ↔ ¬LostInside source text start stop := by
  refine ⟨Agrees.not_lostInside, fun hKept => ?_⟩
  obtain ⟨rest, length, ⟨front, hText, hFront⟩, hToken, rfl⟩ := hString
  obtain ⟨c, cs, rfl, hc⟩ := hToken.head_not_blank
  obtain ⟨stretch, behind, hParts, rfl⟩ := hToken.cut
  cases stretch with
  | nil => exact absurd hToken.length_pos (by simp)
  | cons d stretch =>
    obtain ⟨rfl, rfl⟩ := List.cons.inj hParts
    exact (h.agrees_or_lostInside hText hc (by omega) rfl).resolve_right hKept

/-- An import of a source that had to be blanked has the range of a token of the source. -/
theorem exists_lexeme_of_mem_importsOf {fileName source : String} {located : LocatedImport}
    (hText : workingText? source fileName = some text) (hBlanked : text ≠ source.toList)
    (hLocated : located ∈ importsOf source fileName) :
    ∃ lexeme ∈ lexemesOf (.ofFileName fileName) (withoutMark source.toList),
      lexeme.start = located.path.start ∧ lexeme.stop = located.path.stop := by
  unfold importsOf ParsedSource.ofSource? at hLocated
  unfold workingText? at hText
  dsimp only at hLocated
  obtain ⟨recovered, hRecovered, rfl⟩ := Option.map_eq_some_iff.1 hText
  rw [hRecovered, Option.map_some, Option.map_some, Option.getD_some, if_neg hBlanked] at hLocated
  exact Lexicon.exists_lexeme_of_isToken (List.mem_filter.1 hLocated).2

/-- A stretch in one line of the source that does not hold the word `import` loses nothing. -/
theorem Accounted.not_lostInside (h : Accounted source text)
    (hLine : ∀ n, start ≤ n → n < stop → ¬CharAt source n '\n')
    (hWord : ∀ n, start < n → n < stop → ¬WordAt source n "import".toList) :
    ¬LostInside source text start stop := by
  rintro ⟨offset, hStart, hStop, -, hImport | hBlank⟩
  · exact hWord offset hStart hStop hImport
  · obtain ⟨above, line, below, hText, hIsLine, -, hBehind, hLe, -⟩ := hBlank
    rcases List.eq_nil_or_concat above with rfl | ⟨front, last, rfl⟩
    · rw [byteLength_nil] at hBehind
      omega
    · -- the line feed in front of the line stands in the source, too
      have hFeed : '\n'.utf8Size = 1 := rfl
      obtain rfl : last = '\n' := by
        have hLast := hIsLine.1
        rw [List.concat_eq_append, List.getLast?_concat] at hLast
        simpa using hLast
      rw [List.concat_eq_append, byteLength_append, byteLength_cons, byteLength_nil, hFeed]
        at hBehind hLe
      have hChar : CharAt text (byteLength front) '\n' :=
        ⟨front, line ++ below, by rw [hText]; simp, rfl⟩
      rw [← getElem?_bytes_iff_charAt (by decide), h.blanks.lineFeed_iff,
        getElem?_bytes_iff_charAt (by decide)] at hChar
      exact hLine _ (by omega) (by omega) hChar

/-- An import whose literal lies in one line of the source and does not hold the word `import` has
been read from text of the source. -/
theorem agrees_importsOf_of_plain {fileName source : String} {located : LocatedImport}
    (hText : workingText? source fileName = some text)
    (hLocated : located ∈ importsOf source fileName) :
    let start := located.path.start + markLength text
    let stop := located.path.stop + markLength text
    (∀ n, start ≤ n → n < stop → ¬CharAt source.toList n '\n') →
      (∀ n, start < n → n < stop → ¬WordAt source.toList n "import".toList) →
      Agrees source.toList text start stop := by
  intro start stop hLine hWord
  obtain ⟨text', hText', hAccounted, hString⟩ := importsOf_placed hLocated
  obtain rfl : text' = text := Option.some.inj (hText'.symm.trans hText)
  exact (hAccounted.agrees_iff hString).2 (hAccounted.not_lostInside hLine hWord)

/-- **Literals in blanked sources.** If a source had to be blanked, then each import that is found
has the range of a token of the source. That does not make it text of the source: the two agree in
that range if and only if recovery has not blanked the literal from within, which it can do at a
word `import` in the literal and on a whole line that starts in it.

* `hText` names the text that recovery has left;
* `hBlanked` says that it differs from the source, since nothing is held against the tokens of the
  source otherwise;
* `hLocated` says that the import is one of those found. -/
theorem agrees_importsOf_iff {source fileName : String} {located : LocatedImport}
    (hText : workingText? source fileName = some text) (hBlanked : text ≠ source.toList)
    (hLocated : located ∈ importsOf source fileName) :
    let start := located.path.start + markLength text
    let stop := located.path.stop + markLength text
    (∃ lexeme ∈ lexemesOf (.ofFileName fileName) (withoutMark source.toList),
        lexeme.start = located.path.start ∧ lexeme.stop = located.path.stop) ∧
      (Agrees source.toList text start stop ↔ ¬LostInside source.toList text start stop) := by
  intro start stop
  refine ⟨exists_lexeme_of_mem_importsOf hText hBlanked hLocated, ?_⟩
  obtain ⟨text', hText', hAccounted, hString⟩ := importsOf_placed hLocated
  obtain rfl : text' = text := Option.some.inj (hText'.symm.trans hText)
  exact hAccounted.agrees_iff hString

/-- A literal that ends with its line, holds the word `import`, and runs into an equality sign. -/
def wordInside : String := "import y from '@aws-cdk/import a\n= require(x)"

theorem importsOf_wordInside :
    importsOf wordInside "a" = [⟨.from_, ⟨14, 32, "@aws-cdk/        "⟩⟩] := by
  rw [importsOf_eq_unsorted]
  decide +kernel

theorem workingText?_wordInside : workingText? wordInside "a"
    = some "import y from '@aws-cdk/        \n  require(x)".toList := by
  decide +kernel

/-- The word in the literal is lost. -/
theorem lostInside_wordInside : LostInside wordInside.toList
    "import y from '@aws-cdk/        \n  require(x)".toList 14 32 := by
  have hWord : WordAt wordInside.toList 24 "import".toList :=
    ⟨"import y from '@aws-cdk/".toList, " a\n= require(x)".toList, by decide +kernel⟩
  refine ⟨24, by omega, by omega, ⟨'i', hWord.head, fun hChar => ?_⟩, .inl hWord⟩
  have hSpace : CharAt "import y from '@aws-cdk/        \n  require(x)".toList 24 ' ' :=
    ⟨"import y from '@aws-cdk/".toList, "       \n  require(x)".toList, by decide +kernel⟩
  exact absurd (hChar.unique hSpace) (by decide)

/-- The import of the literal with the word has the range of a token, but not its text. -/
theorem not_agrees_wordInside :
    let text := "import y from '@aws-cdk/        \n  require(x)".toList
    let located : LocatedImport := ⟨.from_, ⟨14, 32, "@aws-cdk/        "⟩⟩
    workingText? wordInside "a" = some text ∧ text ≠ wordInside.toList ∧
      located ∈ importsOf wordInside "a" ∧
      (∃ lexeme ∈ lexemesOf (.ofFileName "a") (withoutMark wordInside.toList),
        lexeme.start = 14 ∧ lexeme.stop = 32) ∧
      ¬Agrees wordInside.toList text 14 32 := by
  intro text located
  have hBlanked : text ≠ wordInside.toList := by decide +kernel
  have hLocated : located ∈ importsOf wordInside "a" := by
    rw [importsOf_wordInside]
    exact List.mem_singleton_self _
  obtain ⟨hToken, hAgrees⟩ := agrees_importsOf_iff workingText?_wordInside hBlanked hLocated
  exact ⟨workingText?_wordInside, hBlanked, hLocated, hToken,
    fun hSame => hAgrees.1 hSame lostInside_wordInside⟩

/-- Not every import of a source that had to be blanked has been read from text of the source: a
literal that no quote closes and that holds the word `import` is blanked from within, up to an
equality sign on the next line, and still has the range of the token. -/
theorem not_agrees_importsOf :
    ¬∀ source fileName text, workingText? source fileName = some text → text ≠ source.toList →
      ∀ located ∈ importsOf source fileName,
        Agrees source.toList text located.path.start located.path.stop := by
  intro h
  have hLocated : ⟨.from_, ⟨14, 32, "@aws-cdk/        "⟩⟩ ∈ importsOf wordInside "a" := by
    rw [importsOf_wordInside]
    exact List.mem_singleton_self _
  have hAgrees := h wordInside "a" _ workingText?_wordInside (by decide +kernel) _ hLocated
  exact hAgrees.not_lostInside lostInside_wordInside

end Relocation

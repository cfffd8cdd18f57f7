import Relocation.Proofs.Lexicon
import Relocation.Proofs.Scanner.Lexemes

/-!
# Words that the scanner stops at

Where the text goes on with the word `import`, the scanner need not see a word: the place may lie in
a comment, in a literal or in another word, where no lexeme starts. If one does start there, then
it is the word as a whole, or raw text: a stretch of a template or of text between tags.

## Results

* `readWord_append`: a word is read up to the character that ends it;
* `Scanner.next_of_import`: one step of the scanner to the word `import`;
* `lexemesOf_ordered`: lexemes follow one another;
* `importToken_iff`: the word is a token if and only if anything but raw text starts there.
-/

namespace Relocation.TypeScript

open Text

variable {text more : List Char} {c : Char}

-- ---------------------------------------------------------------------------
-- Reading a word
-- ---------------------------------------------------------------------------

/-- The character ends a word, also one with hyphens in it. -/
structure EndsWord (c : Char) : Prop where
  part : isIdentifierPart c = false
  escape : c ≠ '\\'
  hyphen : c ≠ '-'

/-- Nothing more is read in front of a character that ends the word. -/
theorem readSpelling_stop (hc : EndsWord c) (fuel : Nat) (word : Spelling) {place : Place}
    (hRest : place.rest = c :: more) : readSpelling (fuel + 1) word place = (word, place) := by
  rw [readSpelling]
  split
  · rfl
  · rename_i hEscape
    obtain ⟨rfl, -⟩ := List.cons.inj (hRest.symm.trans hEscape)
    exact absurd rfl hc.escape
  · rename_i hEscape
    obtain ⟨rfl, -⟩ := List.cons.inj (hRest.symm.trans hEscape)
    exact absurd rfl hc.escape
  · rename_i hNext
    obtain ⟨rfl, -⟩ := List.cons.inj (hRest.symm.trans hNext)
    rw [if_neg (by simp [hc.part])]

/-- A character of the word is taken as it stands. -/
theorem readSpelling_part (hPart : isIdentifierPart c = true) (fuel : Nat) (word : Spelling)
    {place : Place} (hRest : place.rest = c :: more) :
    readSpelling (fuel + 1) word place
      = readSpelling fuel ⟨word.text ++ [c], word.escaped, none⟩ (place.behind [c] more) := by
  have hSlash : isIdentifierPart '\\' = false := by decide
  rw [readSpelling]
  split
  · rename_i hEnd
    rw [hRest] at hEnd
    contradiction
  · rename_i hEscape
    obtain ⟨rfl, -⟩ := List.cons.inj (hRest.symm.trans hEscape)
    rw [hSlash] at hPart
    contradiction
  · rename_i hEscape
    obtain ⟨rfl, -⟩ := List.cons.inj (hRest.symm.trans hEscape)
    rw [hSlash] at hPart
    contradiction
  · rename_i hNext
    obtain ⟨rfl, rfl⟩ := List.cons.inj (hRest.symm.trans hNext)
    rw [if_pos hPart]

/-- A word is spelled up to the character that ends it. -/
theorem readSpelling_append {word : List Char} (hWord : ∀ d ∈ word, isIdentifierPart d = true)
    (hc : EndsWord c) {fuel : Nat} (hFuel : word.length < fuel) (read : List Char) {place : Place}
    (hRest : place.rest = word ++ c :: more) :
    readSpelling fuel ⟨read, false, none⟩ place
      = (⟨read ++ word, false, none⟩, place.behind word (c :: more)) := by
  obtain ⟨fuel, rfl⟩ : ∃ k, fuel = k + 1 := ⟨fuel - 1, by omega⟩
  induction word generalizing fuel read place with
  | nil =>
    have hHere : place.behind [] (c :: more) = place := by
      cases place
      simp only [List.nil_append] at hRest
      simp [Place.behind, hRest]
    rw [readSpelling_stop hc fuel _ hRest, List.append_nil, hHere]
  | cons d word ih =>
    rw [List.length_cons] at hFuel
    obtain ⟨fuel, rfl⟩ : ∃ k, fuel = k + 1 := ⟨fuel - 1, by omega⟩
    have hMore : ∀ e ∈ word, isIdentifierPart e = true := fun e he =>
      hWord e (List.mem_cons_of_mem _ he)
    rw [readSpelling_part (hWord d List.mem_cons_self) _ _ hRest,
      ih hMore (read ++ [d]) rfl fuel (by omega)]
    simp [Place.behind, Nat.add_assoc]

/-- A word is read up to the character that ends it. -/
theorem readWord_append {word : List Char} (hWord : ∀ d ∈ word, isIdentifierPart d = true)
    (hc : EndsWord c) {place : Place} (hRest : place.rest = word ++ c :: more) :
    readWord place = (.word (String.ofList word), place.behind word (c :: more)) := by
  have hFuel : word.length < place.rest.length := by
    rw [hRest, List.length_append, List.length_cons]
    omega
  rw [readWord, readSpelling_append hWord hc hFuel [] hRest]
  rfl

/-- A name with hyphens is read up to the character that ends it. -/
theorem readMarkupName_append {word : List Char} (hWord : ∀ d ∈ word, isIdentifierPart d = true)
    (hc : EndsWord c) {place : Place} (hRest : place.rest = word ++ c :: more) :
    readMarkupName place = (.markupName (String.ofList word), place.behind word (c :: more)) := by
  have hName : (place.rest.takeWhile fun c => isIdentifierPart c || c == '-') = word := by
    rw [hRest, List.takeWhile_append_of_pos fun d hd => by simp [hWord d hd],
      List.takeWhile_cons_of_neg (by simp [hc.part, hc.hyphen]), List.append_nil]
  rw [readMarkupName, hName, hRest, List.drop_left]

-- ---------------------------------------------------------------------------
-- The word in its surroundings
-- ---------------------------------------------------------------------------

/-- Whether the token is text that is not made of tokens, also if the text is not closed. -/
def Token.isRaw : Token → Bool
  | .templateText _ | .markupText | .malformed _ => true
  | _ => false

/-- What is read at the word `import`: the word as a whole, or raw text. -/
def ReadsImport (place : Place) (found : Token × Place) : Prop :=
  place.offset < found.2.offset ∧
    (found.1.isRaw = true ∨ found.2.offset = place.offset + 6 ∧
      (found.1 = .word "import" ∨ found.1 = .markupName "import"))

/-- The word starts with its first letter. -/
theorem uncons_import {rest cs : List Char} {d : Char} (h : rest = "import".toList ++ c :: more)
    (hNext : rest = d :: cs) : d = 'i' ∧ cs = "mport".toList ++ c :: more :=
  List.cons.inj (hNext.symm.trans h)

theorem isIdentifierPart_import : ∀ d ∈ "import".toList, isIdentifierPart d = true :=
  List.all_eq_true.1 (by decide)

-- Each reader of the scanner is asked what it reads at the word. The lemmas follow the way in which
-- the readers call one another, from single words up to the reader for all surroundings.
section Readers

variable {place : Place} {found : Token × Place} {s : Scanner} {manner : Manner}

theorem readsImport_readWord (hRest : place.rest = "import".toList ++ c :: more)
    (hc : EndsWord c) : ReadsImport place (readWord place) := by
  rw [readWord_append isIdentifierPart_import hc hRest]
  refine ⟨?_, .inr ⟨?_, .inl rfl⟩⟩
  · simp only [Place.behind, byteLength_import]
    omega
  · simp only [Place.behind, byteLength_import]

theorem readsImport_readMarkupName (hRest : place.rest = "import".toList ++ c :: more)
    (hc : EndsWord c) : ReadsImport place (readMarkupName place) := by
  rw [readMarkupName_append isIdentifierPart_import hc hRest]
  refine ⟨?_, .inr ⟨?_, .inr rfl⟩⟩
  · simp only [Place.behind, byteLength_import]
    omega
  · simp only [Place.behind, byteLength_import]

theorem readsImport_readHere (hRest : place.rest = "import".toList ++ c :: more)
    (hc : EndsWord c) (h : Scanner.readHere manner place = some found) :
    ReadsImport place found := by
  have hHead : place.rest = 'i' :: ("mport".toList ++ c :: more) := hRest
  have hPassed : isPassedOver manner.anglesAlone place = false := by
    rw [isPassedOver, hHead]
    cases manner.anglesAlone <;> cases place.afterLineBreak <;> rfl
  have hFaulty : isFaultyLine place = false := by
    rw [isFaultyLine, hHead]
    cases place.afterLineBreak <;> rfl
  have hStart : (isIdentifierStart 'i' || decide ('i' = '\\')) = true := by decide
  rw [Scanner.readHere, Scanner.readToken] at h
  split at h
  · contradiction
  · rename_i d cs hNext
    obtain ⟨rfl, rfl⟩ := uncons_import hRest hNext
    rw [hPassed, hFaulty, if_neg (by decide), if_neg (by decide), if_pos hStart] at h
    obtain rfl := Option.some.inj h
    exact readsImport_readWord hRest hc

theorem readsImport_readMarkup (hRest : place.rest = "import".toList ++ c :: more)
    (h : s.readMarkup manner place = some found) : ReadsImport place found := by
  have hHead : place.rest = 'i' :: ("mport".toList ++ c :: more) := hRest
  unfold Scanner.readMarkup at h
  split at h
  · rename_i hNext
    exact absurd (uncons_import hRest hNext).1 (by decide)
  · rename_i hNext
    exact absurd (uncons_import hRest hNext).1 (by decide)
  · -- the text between tags holds the first letter at least
    have hBehind : place.offset < (skipMarkupText place).offset := by
      have hLetter : 'i'.utf8Size = 1 := rfl
      rw [skipMarkupText, hHead, List.takeWhile_cons_of_pos (by decide)]
      simp only [Place.behind, byteLength_cons, hLetter]
      omega
    dsimp only at h
    split at h
    · obtain rfl := Option.some.inj h
      exact ⟨hBehind, .inl rfl⟩
    · obtain rfl := Option.some.inj h
      exact ⟨hBehind, .inl rfl⟩

theorem readsImport_readAmongTags (hRest : place.rest = "import".toList ++ c :: more)
    (hc : EndsWord c) (h : s.readAmongTags manner place = some found) :
    ReadsImport place found := by
  unfold Scanner.readAmongTags at h
  dsimp only at h
  split at h
  · exact readsImport_readMarkup hRest h
  split at h
  · rename_i hNext
    exact absurd (uncons_import hRest hNext).1 (by decide)
  · rename_i d cs _ hNext
    obtain ⟨rfl, rfl⟩ := uncons_import hRest hNext
    split at h
    · obtain rfl := Option.some.inj h
      exact readsImport_readMarkupName hRest hc
    split at h
    · rename_i hClose
      simp at hClose
    split at h
    · rename_i hQuote
      simp at hQuote
    · exact readsImport_readHere hRest hc h
  · contradiction

theorem isRaw_readTemplateText (opened fuel : Nat) (fault : Option Nat) (place : Place) :
    (readTemplateText opened fuel fault place).1.isRaw = true := by
  fun_induction readTemplateText opened fuel fault place <;> first | rfl | assumption

theorem readsImport_readTemplateText (opened fuel : Nat)
    (hRest : place.rest = "import".toList ++ c :: more) :
    ReadsImport place (readTemplateText opened (fuel + 1) none place) := by
  have hHead : place.rest = 'i' :: ("mport".toList ++ c :: more) := hRest
  refine ⟨?_, .inl (isRaw_readTemplateText _ _ _ _)⟩
  rw [readTemplateText]
  split
  · rename_i hEnd
    rw [hHead] at hEnd
    contradiction
  · rename_i hNext
    exact absurd (uncons_import hRest hNext).1 (by decide)
  · rename_i hNext
    exact absurd (uncons_import hRest hNext).1 (by decide)
  · rename_i hNext
    exact absurd (uncons_import hRest hNext).1 (by decide)
  · rename_i d rest _ _ _ hNext
    have hPos := Char.utf8Size_pos d
    have hLe := (readAs_readTemplateText opened fuel none (place.behind [d] rest)).passes.le
    simp only [Place.behind, byteLength_cons, byteLength_nil] at hLe ⊢
    omega

theorem readsImport_readInTemplate (s : Scanner)
    (hRest : place.rest = "import".toList ++ c :: more) :
    ReadsImport place (s.readInTemplate place) := by
  have hMark : readTemplateMark? place = none := by
    have hHead : place.rest = 'i' :: ("mport".toList ++ c :: more) := hRest
    rw [readTemplateMark?, hHead]
    rfl
  unfold Scanner.readInTemplate
  dsimp only
  rw [hMark]
  split
  · contradiction
  · exact readsImport_readTemplateText _ _ hRest

theorem readsImport_readAt (hRest : place.rest = "import".toList ++ c :: more)
    (hc : EndsWord c) (h : s.readAt manner place = some found) : ReadsImport place found := by
  unfold Scanner.readAt at h
  split at h
  · contradiction
  · dsimp only at h
    split at h
    · obtain rfl := Option.some.inj h
      exact readsImport_readInTemplate s hRest
    split at h
    · exact readsImport_readAmongTags hRest hc h
    · exact readsImport_readHere hRest hc h

end Readers

-- ---------------------------------------------------------------------------
-- The word among the lexemes
-- ---------------------------------------------------------------------------

/-- What follows a cut of the text is given by the offset. -/
theorem Follows.unique {rest rest' : List Char} {offset : Nat} (h : Follows text rest offset)
    (h' : Follows text rest' offset) : rest = rest' := by
  obtain ⟨front, rfl, hFront⟩ := h
  obtain ⟨front', hText, hFront'⟩ := h'
  exact (append_inj_of_byteLength hText (by omega)).2

/-- A lexeme that starts at the word `import` is the word as a whole, or raw text. -/
theorem Scanner.next_of_import {s : Scanner} {manner : Manner} {lexeme : Lexeme}
    (hCut : s.AtCut text) (hNext : (s.next manner).1 = some lexeme)
    (hRest : Follows text ("import".toList ++ c :: more) lexeme.start) (hc : EndsWord c) :
    lexeme.start < lexeme.stop ∧
      (lexeme.token.isRaw = true ∨ lexeme.stop = lexeme.start + 6 ∧
        (lexeme.token = .word "import" ∨ lexeme.token = .markupName "import")) := by
  unfold Scanner.next at hNext
  split at hNext
  · rename_i cs _ hLine
    obtain rfl := Option.some.inj hNext
    have hSame := hRest.unique hCut
    rw [hLine] at hSame
    obtain ⟨hHash, -⟩ := List.cons.inj (show 'i' :: ("mport".toList ++ c :: more) = _ from hSame)
    exact absurd hHash (by decide)
  · have hPlace : Follows text s.nextPlace.rest s.nextPlace.offset :=
      hCut.trans (passes_nextPlace s)
    dsimp only at hNext
    split at hNext
    · contradiction
    · rename_i token place' hRead
      obtain rfl := Option.some.inj hNext
      exact readsImport_readAt (hPlace.unique hRest) hc hRead

/-- A lexeme of a run is read by one step of the scanner, at a cut of the text. -/
theorem Scanner.exists_next_of_mem_lexemes {fuel : Nat} {s : Scanner} {lexeme : Lexeme}
    (hCut : s.AtCut text) (h : lexeme ∈ s.lexemes fuel) :
    ∃ s' : Scanner, s'.AtCut text ∧ (s'.next .plain).1 = some lexeme := by
  induction fuel generalizing s with
  | zero => simp [Scanner.lexemes] at h
  | succ fuel ih =>
    have hNext := (Scanner.next_spec .plain hCut).1
    unfold Scanner.lexemes at h
    split at h
    · simp at h
    · rename_i found s' hFound
      rw [hFound] at hNext
      rcases List.mem_cons.1 h with rfl | hLater
      · exact ⟨s, hCut, by rw [hFound]⟩
      · exact ih hNext hLater

/-- The lexemes of a run start behind the scanner and follow one another. -/
theorem Scanner.lexemes_ordered {s : Scanner} (fuel : Nat) (hCut : s.AtCut text) :
    (∀ lexeme ∈ s.lexemes fuel, s.offset ≤ lexeme.start) ∧
      (s.lexemes fuel).Pairwise fun l r => l.stop ≤ r.start := by
  induction fuel generalizing s with
  | zero => exact ⟨fun _ h => by simp [Scanner.lexemes] at h, .nil⟩
  | succ fuel ih =>
    obtain ⟨hNext, hOffset, hRead⟩ := Scanner.next_spec .plain hCut
    unfold Scanner.lexemes
    split
    · exact ⟨fun _ h => by simp at h, .nil⟩
    · rename_i found s' hFound
      rw [hFound] at hNext hOffset hRead
      obtain ⟨-, hStart, hStop⟩ := hRead found rfl
      obtain ⟨hBehind, hPairs⟩ := ih hNext
      refine ⟨fun lexeme h => ?_, List.pairwise_cons.2 ⟨fun lexeme h => ?_, hPairs⟩⟩
      · rcases List.mem_cons.1 h with rfl | hLater
        · exact hStart
        · exact Nat.le_trans hOffset (hBehind lexeme hLater)
      · exact Nat.le_trans hStop (hBehind lexeme h)

/-- The lexemes of a text follow one another. -/
theorem lexemesOf_ordered (dialect : Dialect) (text : List Char) :
    (lexemesOf dialect text).Pairwise fun l r => l.stop ≤ r.start :=
  (Scanner.lexemes_ordered _ (Scanner.atCut_start dialect text)).2

/-- A lexeme that is not empty is the only one with its start that is not empty. -/
theorem eq_of_start_eq {dialect : Dialect} {l r : Lexeme} (hl : l ∈ lexemesOf dialect text)
    (hr : r ∈ lexemesOf dialect text) (hStart : l.start = r.start) (hl' : l.start < l.stop)
    (hr' : r.start < r.stop) : l = r := by
  have hSymm : Std.Symm fun l r : Lexeme =>
      l.start = r.start → l.start < l.stop → r.start < r.stop → l = r :=
    ⟨fun _ _ h hStart hl' hr' => (h hStart.symm hr' hl').symm⟩
  have hAlike := (lexemesOf_ordered dialect text).imp fun {l r} hLe =>
    show l.start = r.start → l.start < l.stop → r.start < r.stop → l = r from
      fun hStart hl' _ => by omega
  exact List.Pairwise.forall_of_forall (fun _ _ _ _ _ => rfl) hAlike hl hr hStart hl' hr'

/-- The word is a token of the text: a lexeme by itself, the word `import` or a name in a tag. -/
def ImportToken (dialect : Dialect) (text : List Char) (start : Nat) : Prop :=
  (Lexicon.ofText dialect text).isToken ⟨start, start + 6⟩ = true ∧
    ∃ lexeme ∈ lexemesOf dialect text, lexeme.start = start ∧
      (lexeme.token = .word "import" ∨ lexeme.token = .markupName "import")

/-- **The word `import` as a token.** Where the text goes on with the word, the word is a token
if and only if a lexeme starts there that is not raw text: it cannot be part of a longer word or
number then, and template text and text between tags are raw.

`hRest` says that the text goes on with the word at the offset, and `hc` that the character
behind it ends a word. -/
theorem importToken_iff {dialect : Dialect} {start : Nat}
    (hRest : Follows text ("import".toList ++ c :: more) start) (hc : EndsWord c) :
    ImportToken dialect text start ↔
      ∃ lexeme ∈ lexemesOf dialect text, lexeme.start = start ∧ lexeme.token.isRaw = false := by
  have hRead : ∀ lexeme ∈ lexemesOf dialect text, lexeme.start = start →
      lexeme.start < lexeme.stop ∧
        (lexeme.token.isRaw = true ∨ lexeme.stop = lexeme.start + 6 ∧
          (lexeme.token = .word "import" ∨ lexeme.token = .markupName "import")) := by
    rintro lexeme hLexeme rfl
    obtain ⟨s, hCut, hNext⟩ :=
      Scanner.exists_next_of_mem_lexemes (Scanner.atCut_start dialect text) hLexeme
    exact Scanner.next_of_import hCut hNext hRest hc
  constructor
  · rintro ⟨-, lexeme, hLexeme, hStart, hToken | hToken⟩
    · exact ⟨lexeme, hLexeme, hStart, by rw [hToken]; rfl⟩
    · exact ⟨lexeme, hLexeme, hStart, by rw [hToken]; rfl⟩
  · rintro ⟨lexeme, hLexeme, hStart, hNotRaw⟩
    obtain ⟨hLt, hRaw | ⟨hStop, hToken⟩⟩ := hRead lexeme hLexeme hStart
    · rw [hNotRaw] at hRaw
      contradiction
    refine ⟨?_, lexeme, hLexeme, hStart, hToken⟩
    rw [Lexicon.isToken_ofText, Lexicon.isToken_iff, Lexicon.unsorted, List.find?_map]
    have hFound : ((lexemesOf dialect text).find? fun l => l.start == start) = some lexeme := by
      obtain ⟨first, hFirst⟩ := Option.isSome_iff_exists.1
        (List.find?_isSome.2 ⟨lexeme, hLexeme, by simp [hStart]⟩ :
          ((lexemesOf dialect text).find? fun l => l.start == start).isSome = true)
      have hMem := List.mem_of_find?_eq_some hFirst
      have hFirstStart : first.start = start := by simpa using List.find?_some hFirst
      rw [hFirst, eq_of_start_eq hMem hLexeme (hFirstStart.trans hStart.symm)
        (hRead first hMem hFirstStart).1 hLt]
    rw [show ((fun token : ByteRange => token.start == start) ∘ fun lexeme : Lexeme =>
      (⟨lexeme.start, lexeme.stop⟩ : ByteRange)) = fun l => l.start == start from rfl, hFound]
    simp [hStart, hStop]

end Relocation.TypeScript

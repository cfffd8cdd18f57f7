import Relocation.Proofs.Literals
import Relocation.Proofs.Scanner.Passing

/-!
# How tokens stand in the text

Two kinds of token are told from the text again later on: a string literal, whose place and value
may end up in an import, and a slash, from which the grammar may have a regular expression read.
`StringToken` says what the text of a string token looks like: a closed literal, one that ends with
its line, or the value of an attribute; and a token may have a line in front of it that is passed
over. `ReadAs` is what each reader guarantees of the token that it finds.

## Results

* `readAs_readAt`: every token stands in the text as its kind demands;
* `StringToken.length_pos`: a string token is not empty.
-/

namespace Relocation.TypeScript

open Text

-- ---------------------------------------------------------------------------
-- Tokens that are told from the text
-- ---------------------------------------------------------------------------

/-- The marks that start a line which is passed over. -/
def lineMarks : List String := ["<!--", "-->", "=======", "<<<<<<< ", ">>>>>>> "]

/-- The text from a string token on, the length of the token in bytes, and its value. -/
inductive StringToken : List Char → Nat → String → Prop where
  /-- A literal with its closing quote. -/
  | closed {quote : Char} {raw value behind : List Char} (hQuote : IsQuote quote)
      (hInside : Inside quote (some quote) raw value) :
      StringToken (quote :: (raw ++ quote :: behind)) (byteLength raw + 2) (String.ofList value)
  /-- A literal that ends with its line. -/
  | unclosed {quote : Char} {raw value behind : List Char} (hQuote : IsQuote quote)
      (hInside : Inside quote behind.head? raw value)
      (hEnd : (behind.head?.all fun c => c = '\n' ∨ c = '\r') = true) :
      StringToken (quote :: (raw ++ behind)) (byteLength raw + 1) (String.ofList value)
  /-- The value of an attribute, which knows no escapes. -/
  | attributeValue {quote : Char} {raw behind : List Char} (hQuote : IsQuote quote)
      (hRaw : quote ∉ raw) :
      StringToken (quote :: (raw ++ quote :: behind)) (byteLength raw + 2) (String.ofList raw)
  /-- A token behind a line that is passed over; the token counts from that line on. -/
  | behindMark {mark : String} {passed rest : List Char} {length : Nat} {value : String}
      (hMark : mark ∈ lineMarks) (h : StringToken rest length value) :
      StringToken (mark.toList ++ (passed ++ rest))
        (byteLength mark.toList + byteLength passed + length) value

theorem IsQuote.utf8Size {quote : Char} (h : IsQuote quote) : quote.utf8Size = 1 := by
  rcases h with rfl | rfl <;> decide

theorem StringToken.length_pos {rest : List Char} {length : Nat} {value : String}
    (h : StringToken rest length value) : 0 < length := by
  induction h <;> omega

/-- A string token lies in the text. -/
theorem StringToken.length_le {rest : List Char} {length : Nat} {value : String}
    (h : StringToken rest length value) : length ≤ byteLength rest := by
  induction h with
  | closed hQuote | attributeValue hQuote =>
    simp only [byteLength_cons, byteLength_append, hQuote.utf8Size]
    omega
  | unclosed hQuote =>
    simp only [byteLength_cons, byteLength_append, hQuote.utf8Size]
    omega
  | behindMark _ _ ih =>
    simp only [byteLength_append]
    omega

/-- A mark starts with a character of one byte that is neither blank nor a quote. -/
theorem head_of_mem_lineMarks {mark : String} (h : mark ∈ lineMarks) :
    ∃ c cs, mark.toList = c :: cs ∧ c.utf8Size = 1 ∧ isBlank c = false ∧ ¬ IsQuote c := by
  have hHead : mark.toList.head?.any
      (fun c => c.utf8Size == 1 && !isBlank c && !(c == '\'' || c == '"')) = true :=
    List.all_eq_true.1 (by decide : lineMarks.all fun mark => mark.toList.head?.any
      fun c => c.utf8Size == 1 && !isBlank c && !(c == '\'' || c == '"')) mark h
  cases hMark : mark.toList with
  | nil => simp [hMark] at hHead
  | cons c cs =>
    simp only [hMark, List.head?_cons, Option.any_some, Bool.and_eq_true, Bool.not_eq_true',
      beq_iff_eq, Bool.or_eq_false_iff, beq_eq_false_iff_ne] at hHead
    obtain ⟨⟨hThin, hBlank⟩, hSingle, hDouble⟩ := hHead
    exact ⟨c, cs, rfl, hThin, hBlank, fun hQuote => hQuote.elim hSingle hDouble⟩

theorem IsQuote.not_blank {quote : Char} (hQuote : IsQuote quote) : isBlank quote = false := by
  rcases hQuote with rfl | rfl <;> decide

/-- A string token does not start with a blank. -/
theorem StringToken.head_not_blank {rest : List Char} {length : Nat} {value : String}
    (h : StringToken rest length value) : ∃ c cs, rest = c :: cs ∧ isBlank c = false := by
  cases h with
  | closed hQuote => exact ⟨_, _, rfl, hQuote.not_blank⟩
  | unclosed hQuote => exact ⟨_, _, rfl, hQuote.not_blank⟩
  | attributeValue hQuote => exact ⟨_, _, rfl, hQuote.not_blank⟩
  | behindMark hMark _ =>
    obtain ⟨c, cs, hHead, -, hBlank, -⟩ := head_of_mem_lineMarks hMark
    rw [hHead]
    exact ⟨c, _, rfl, hBlank⟩

/-- A string token that starts with a quote is a literal that the quote closes, one that ends with
its line, or the value of an attribute. -/
theorem StringToken.of_quote {quote : Char} {rest : List Char} {length : Nat} {value : String}
    (hQuote : IsQuote quote) (h : StringToken (quote :: rest) length value) :
    (∃ raw behind, rest = raw ++ quote :: behind ∧ length = byteLength raw + 2 ∧
        Inside quote (some quote) raw value.toList) ∨
      (∃ raw behind, rest = raw ++ behind ∧ length = byteLength raw + 1 ∧
        Inside quote behind.head? raw value.toList) ∨
      ∃ behind, rest = value.toList ++ quote :: behind ∧ length = byteLength value.toList + 2 := by
  generalize hText : quote :: rest = token at h
  cases h with
  | closed _ hInside =>
    obtain ⟨rfl, rfl⟩ := List.cons.inj hText
    exact .inl ⟨_, _, rfl, rfl, by rwa [String.toList_ofList]⟩
  | unclosed _ hInside _ =>
    obtain ⟨rfl, rfl⟩ := List.cons.inj hText
    exact .inr (.inl ⟨_, _, rfl, rfl, by rwa [String.toList_ofList]⟩)
  | attributeValue =>
    obtain ⟨rfl, rfl⟩ := List.cons.inj hText
    exact .inr (.inr ⟨_, by rw [String.toList_ofList], by rw [String.toList_ofList]⟩)
  | behindMark hMark _ =>
    obtain ⟨c, cs, hHead, -, -, hNot⟩ := head_of_mem_lineMarks hMark
    rw [hHead] at hText
    obtain ⟨rfl, -⟩ := List.cons.inj hText
    exact absurd hQuote hNot

/-- Whether the token is a slash, or starts with one. -/
def Token.isSlash (token : Token) : Bool := token == .sym "/" || token == .sym "/="

/-- Whether nothing is asked of the text of the token. -/
def Token.isFree : Token → Bool
  | .str _ => false
  | token => !token.isSlash

/-- Whether the text starts with a character of one byte. -/
def StartsThin (rest : List Char) : Prop := ∃ c cs, rest = c :: cs ∧ c.utf8Size = 1

/-- What a reader guarantees of a token: the place behind it lies further on, and the text of a
string token or a slash is as it should be. -/
structure ReadAs (place : Place) (found : Token × Place) : Prop where
  passes : Passes place found.2
  string : ∀ value, found.1 = .str value →
    ∃ length, StringToken place.rest length value ∧ found.2.offset = place.offset + length
  slash : found.1.isSlash = true → StartsThin place.rest

theorem ReadAs.of_isFree {place : Place} {found : Token × Place} (h : Passes place found.2)
    (hFree : found.1.isFree = true) : ReadAs place found := by
  refine ⟨h, fun value hValue => ?_, fun hSlash => ?_⟩
  · rw [hValue] at hFree
    contradiction
  · unfold Token.isFree at hFree
    split at hFree
    · contradiction
    · rw [hSlash] at hFree
      contradiction

variable {place : Place}

-- ---------------------------------------------------------------------------
-- Words, numbers and symbols
-- ---------------------------------------------------------------------------

theorem isFree_readWord (place : Place) : (readWord place).1.isFree = true := by
  unfold readWord
  split
  split
  · rfl
  · dsimp only
    split <;> rfl

theorem isFree_endNumber (place : Place) : place.endNumber.1.isFree = true := by
  unfold Place.endNumber
  split
  · split <;> rfl
  · rfl

theorem isFree_expectDigits {base : Nat} {next : Place → Token × Place}
    (h : ∀ place, (next place).1.isFree = true) :
    (place.expectDigits base next).1.isFree = true := by
  unfold Place.expectDigits
  split
  · exact h _
  · rfl

theorem isFree_readExponent (place : Place) : place.readExponent.1.isFree = true := by
  unfold Place.readExponent
  split
  · split
    · rfl
    all_goals exact isFree_expectDigits isFree_endNumber
  · split
    · rfl
    all_goals exact isFree_expectDigits isFree_endNumber
  · exact isFree_endNumber place

theorem isFree_readFraction (place : Place) : place.readFraction.1.isFree = true := by
  unfold Place.readFraction
  split <;> exact isFree_readExponent _

theorem isFree_readInBase (place : Place) (base : Nat) (cs : List Char) :
    (place.readInBase base cs).1.isFree = true := by
  refine isFree_expectDigits fun behind => ?_
  split
  · rfl
  · exact isFree_endNumber behind

theorem isFree_readDecimal (place : Place) : place.readDecimal.1.isFree = true := by
  unfold Place.readDecimal
  split
  dsimp only
  split
  · exact isFree_endNumber _
  · split
    · split
      · exact isFree_readFraction _
      · rfl
    · exact isFree_readFraction _

theorem isFree_readNumber (place : Place) : place.readNumber.1.isFree = true := by
  unfold Place.readNumber
  split
  all_goals
    first
    | exact isFree_readInBase _ _ _
    | exact isFree_readFraction place
    | exact isFree_readDecimal place

theorem readAs_readSymbol? {anglesAlone : Bool} {found : Token × Place}
    (h : readSymbol? anglesAlone place = some found) : ReadAs place found := by
  obtain ⟨symbol, -, hFound⟩ := List.exists_of_findSome?_eq_some h
  obtain ⟨rest, hStrip, rfl⟩ := Option.map_eq_some_iff.1 hFound
  have hRest : place.rest = symbol.toList ++ rest := eq_append_of_isPrefixOf? hStrip
  refine ⟨passes_behind hRest, fun value hValue => by simp at hValue, fun hSlash => ?_⟩
  have hCase : symbol = "/" ∨ symbol = "/=" := by simpa [Token.isSlash] using hSlash
  rcases hCase with rfl | rfl
  · exact ⟨'/', rest, hRest, by decide⟩
  · exact ⟨'/', '=' :: rest, hRest, by decide⟩

-- ---------------------------------------------------------------------------
-- Raw text
-- ---------------------------------------------------------------------------

theorem readAs_readTemplateText (opened fuel : Nat) (fault : Option Nat) (place : Place) :
    ReadAs place (readTemplateText opened fuel fault place) := by
  refine .of_isFree ?_ ?_
  · induction fuel generalizing fault place with
    | zero => exact .refl place
    | succ fuel ih =>
      unfold readTemplateText
      split
      · exact .refl place
      · exact .refl place
      · exact .refl place
      · rename_i rest hRest
        have hText : (Escape.read true rest).text = rest := Escape.text_read true rest
        split
        all_goals
          rename_i hEscape
          rw [hEscape, Escape.text] at hText
          exact (passes_behind (by rw [hRest, List.cons_append, hText])).trans (ih _ _)
      · rename_i hRest
        exact (passes_behind hRest).trans (ih _ _)
  · fun_induction readTemplateText opened fuel fault place <;> first | rfl | assumption

theorem readAs_readTemplateMark? {found : Token × Place}
    (h : readTemplateMark? place = some found) : ReadAs place found := by
  unfold readTemplateMark? at h
  split at h
  · rename_i hRest
    obtain rfl := Option.some.inj h
    exact .of_isFree (passes_behind hRest) rfl
  · rename_i hRest
    obtain rfl := Option.some.inj h
    exact .of_isFree (passes_behind hRest) rfl
  · contradiction

/-- What is left behind the characters of one kind. -/
theorem drop_length_takeWhile (p : Char → Bool) (cs : List Char) :
    cs.drop (cs.takeWhile p).length = cs.dropWhile p := by
  have hParts : cs.takeWhile p ++ cs.dropWhile p = cs := List.takeWhile_append_dropWhile
  calc cs.drop (cs.takeWhile p).length
      = (cs.takeWhile p ++ cs.dropWhile p).drop (cs.takeWhile p).length := by rw [hParts]
    _ = cs.dropWhile p := List.drop_left

theorem takeWhile_append_drop (p : Char → Bool) (cs : List Char) :
    cs = cs.takeWhile p ++ cs.drop (cs.takeWhile p).length := by
  rw [drop_length_takeWhile, List.takeWhile_append_dropWhile]

theorem passes_skipMarkupText (place : Place) : Passes place (skipMarkupText place) :=
  passes_behind (takeWhile_append_drop _ _)

theorem readAs_readMarkupName (place : Place) : ReadAs place (readMarkupName place) :=
  .of_isFree (passes_behind (takeWhile_append_drop _ _)) rfl

theorem readAs_readAttributeValue {quote : Char} {cs : List Char} (hQuote : IsQuote quote)
    (hRest : place.rest = quote :: cs) : ReadAs place (readAttributeValue quote place cs) := by
  have hThin := hQuote.utf8Size
  have hBehind : place.rest = (quote :: cs.takeWhile (· != quote))
      ++ cs.drop (cs.takeWhile (· != quote)).length := by
    rw [hRest, List.cons_append, ← takeWhile_append_drop]
  unfold readAttributeValue
  dsimp only
  split
  · exact .of_isFree (passes_behind hBehind) rfl
  · rename_i c rest hEnd
    have hEnd : cs.drop (cs.takeWhile (· != quote)).length = c :: rest := hEnd
    obtain rfl : c = quote := by
      rw [drop_length_takeWhile] at hEnd
      rcases dropWhile_ne_cases quote cs with ⟨hNil, -⟩ | ⟨rest', hCons⟩
      · rw [hEnd] at hNil
        contradiction
      · exact (List.cons.inj (hEnd.symm.trans hCons)).1
    refine ⟨?_, ?_, by simp [Token.isSlash]⟩
    · exact (passes_behind hBehind).trans (passes_behind hEnd)
    · rintro _ ⟨⟩
      refine ⟨byteLength (cs.takeWhile (· != c)) + 2, ?_, ?_⟩
      · rw [hBehind, hEnd, List.cons_append]
        exact .attributeValue hQuote (notMem_takeWhile_ne c cs)
      · simp only [Place.behind, byteLength_cons, byteLength_nil, hThin]
        omega

/-- A string token reads as its text says. -/
theorem readAs_readString {quote : Char} {cs : List Char} (hQuote : IsQuote quote)
    (hRest : place.rest = quote :: cs) : ReadAs place (Scanner.readString quote place cs) := by
  have hThin := hQuote.utf8Size
  unfold Scanner.readString
  generalize hBody : Body.read quote cs = body
  obtain ⟨raw, value, ending, rest⟩ := body
  have hText : (Body.read quote cs).text quote = cs := Body.text_read quote cs
  rw [hBody, Body.text] at hText
  cases ending with
  | closed =>
    obtain ⟨rfl, hInside⟩ := (Body.read_eq_closed_iff hQuote).1 hBody
    refine ⟨⟨quote :: (raw ++ [quote]), by simp [hRest, Place.behind], ?_⟩, ?_,
      by simp [Token.isSlash]⟩
    · simp only [Place.behind, byteLength_cons, byteLength_append, byteLength_nil, hThin]
      omega
    · rintro _ ⟨⟩
      refine ⟨byteLength raw + 2, by rw [hRest]; exact .closed hQuote hInside, ?_⟩
      simp only [Place.behind, byteLength_cons, hThin]
      omega
  | unclosed =>
    obtain ⟨rfl, hInside, hEnd⟩ := (Body.read_eq_unclosed_iff hQuote).1 hBody
    refine ⟨passes_behind hRest, ?_, by simp [Token.isSlash]⟩
    rintro _ ⟨⟩
    refine ⟨byteLength raw + 1, by rw [hRest]; exact .unclosed hQuote hInside hEnd, ?_⟩
    simp only [Place.behind, byteLength_cons, hThin]
    omega
  | malformed fault =>
    refine .of_isFree (passes_behind ?_) rfl
    rw [hRest, ← hText]
    simp

-- ---------------------------------------------------------------------------
-- Tokens behind a line that is passed over
-- ---------------------------------------------------------------------------

/-- The text starts with one of the marks. -/
def StartsWithMark (cs : List Char) : Prop :=
  ∃ mark ∈ lineMarks, ∃ rest, cs = mark.toList ++ rest

theorem startsWithMark_of_any {cs : List Char} {runs : List String}
    (h : startsWithAny cs runs = true) (hRuns : runs ⊆ lineMarks) : StartsWithMark cs := by
  obtain ⟨mark, hMark, hStrip⟩ := List.any_eq_true.1 h
  obtain ⟨rest, hRest⟩ := Option.isSome_iff_exists.1 hStrip
  exact ⟨mark, hRuns hMark, rest, eq_append_of_isPrefixOf? hRest⟩

/-- A line that is passed over starts with one of the marks. -/
theorem startsWithMark_of_isPassedOver {anglesAlone : Bool}
    (h : isPassedOver anglesAlone place = true) : StartsWithMark place.rest := by
  simp only [isPassedOver, Bool.or_eq_true, Bool.and_eq_true] at h
  rcases h with (⟨-, h⟩ | ⟨-, h⟩) | ⟨-, h⟩
  all_goals exact startsWithMark_of_any h (by decide)

/-- Nothing of a line is left out when its rest is skipped. -/
theorem skipLine_append {front : List Char} (rest : List Char) (offset : Nat)
    (h : front.all (fun c => !isLineBreak c) = true) :
    skipLine (front ++ rest) offset = skipLine rest (offset + byteLength front) := by
  induction front generalizing offset with
  | nil => rfl
  | cons c cs ih =>
    simp only [List.all_cons, Bool.and_eq_true, Bool.not_eq_true'] at h
    rw [List.cons_append, skipLine, h.1, byteLength_cons, ← Nat.add_assoc]
    exact ih _ h.2

/-- A token behind a line that is passed over counts from that line on. -/
theorem ReadAs.behindMark {found : Token × Place} (hMark : StartsWithMark place.rest)
    (h : ReadAs (passOver place) found) : ReadAs place found := by
  obtain ⟨mark, hMark, rest, hRest⟩ := hMark
  have hPasses : Goes rest (place.offset + byteLength mark.toList) (passOver place).rest
      (passOver place).offset := by
    have hPlain : mark.toList.all (fun c => !isLineBreak c) = true :=
      List.all_eq_true.1 (by decide : lineMarks.all fun mark =>
        mark.toList.all fun c => !isLineBreak c) mark hMark
    have hLine := goes_skipLine rest (place.offset + byteLength mark.toList)
    rw [← skipLine_append rest place.offset hPlain, ← hRest] at hLine
    exact hLine.trans (passes_skipGap ⟨_, _, place.afterLineBreak⟩)
  refine ⟨(passes_passOver place).trans h.passes, fun value hValue => ?_, fun _ => ?_⟩
  · obtain ⟨length, hString, hOffset⟩ := h.string value hValue
    obtain ⟨passed, rfl, hBehind⟩ := hPasses
    refine ⟨byteLength mark.toList + byteLength passed + length, ?_, by omega⟩
    rw [hRest]
    exact .behindMark hMark hString
  · obtain ⟨c, cs, hHead, hThin, -⟩ := head_of_mem_lineMarks hMark
    exact ⟨c, cs ++ rest, by rw [hRest, hHead]; rfl, hThin⟩

-- ---------------------------------------------------------------------------
-- The readers of the scanner
-- ---------------------------------------------------------------------------

namespace Scanner

variable {found : Token × Place} {s : Scanner} {manner : Manner}

theorem readAs_readToken {anglesAlone : Bool} {fuel : Nat}
    (h : readToken anglesAlone fuel place = some found) : ReadAs place found := by
  induction fuel generalizing place with
  | zero => contradiction
  | succ fuel ih =>
    unfold readToken at h
    split at h
    · contradiction
    · rename_i c cs hRest
      split at h
      · rename_i hPassed
        exact .behindMark (startsWithMark_of_isPassedOver hPassed) (ih h)
      split at h
      · obtain rfl := Option.some.inj h
        exact .of_isFree (passes_passOver place) rfl
      split at h
      · obtain rfl := Option.some.inj h
        exact .of_isFree (passes_readWord place) (isFree_readWord place)
      split at h
      · obtain rfl := Option.some.inj h
        exact .of_isFree (passes_readNumber place) (isFree_readNumber place)
      split at h
      · rename_i hQuote
        simp only [Bool.or_eq_true, decide_eq_true_eq] at hQuote
        obtain rfl := Option.some.inj h
        exact readAs_readString hQuote hRest
      split at h
      · rename_i found' hSymbol
        obtain rfl := Option.some.inj h
        exact readAs_readSymbol? hSymbol
      · obtain rfl := Option.some.inj h
        exact .of_isFree (passes_behind hRest) rfl

theorem readAs_readHere (h : readHere manner place = some found) : ReadAs place found :=
  readAs_readToken h

theorem readAs_readTagStart {cs : List Char} (hRest : place.rest = '<' :: cs)
    (h : readTagStart manner place cs = some found) : ReadAs place found := by
  unfold readTagStart at h
  split at h
  · rename_i hPassed
    simp only [Bool.and_eq_true] at hPassed
    exact .behindMark (startsWithMark_of_any hPassed.2 (by decide)) (readAs_readHere h)
  · obtain rfl := Option.some.inj h
    exact .of_isFree (passes_behind (show place.rest = ['<'] ++ cs from hRest)) rfl

theorem readAs_readMarkup (h : s.readMarkup manner place = some found) : ReadAs place found := by
  unfold readMarkup at h
  split at h
  · rename_i cs hRest
    split at h
    · exact readAs_readTagStart hRest h
    · exact readAs_readHere h
  · exact readAs_readHere h
  · dsimp only at h
    split at h <;> obtain rfl := Option.some.inj h
    · exact .of_isFree (passes_skipMarkupText place) rfl
    · exact .of_isFree (passes_skipMarkupText place) rfl

theorem readAs_readAmongTags (h : s.readAmongTags manner place = some found) :
    ReadAs place found := by
  unfold readAmongTags at h
  dsimp only at h
  split at h
  · exact readAs_readMarkup h
  split at h
  · rename_i cs hRest
    split at h
    · exact readAs_readTagStart hRest h
    · exact readAs_readHere h
  · rename_i c cs _ hRest
    split at h
    · obtain rfl := Option.some.inj h
      exact readAs_readMarkupName place
    split at h
    · rename_i hClose
      simp only [Bool.and_eq_true, decide_eq_true_eq] at hClose
      obtain rfl := Option.some.inj h
      have hAngle : place.rest = ['>'] ++ cs := by rw [hRest, hClose.2]; rfl
      exact .of_isFree (passes_behind hAngle) rfl
    split at h
    · rename_i hQuote
      simp only [Bool.and_eq_true, Bool.or_eq_true, decide_eq_true_eq] at hQuote
      obtain rfl := Option.some.inj h
      exact readAs_readAttributeValue hQuote.2 hRest
    · exact readAs_readHere h
  · contradiction

theorem readAs_readInTemplate (s : Scanner) (place : Place) :
    ReadAs place (s.readInTemplate place) := by
  unfold readInTemplate
  dsimp only
  split
  · rename_i hMark
    exact readAs_readTemplateMark? hMark
  · exact readAs_readTemplateText _ _ _ place

/-- Every token stands in the text as its kind demands. -/
theorem readAs_readAt (h : s.readAt manner place = some found) : ReadAs place found := by
  unfold readAt at h
  split at h
  · contradiction
  · dsimp only at h
    split at h
    · obtain rfl := Option.some.inj h
      exact readAs_readInTemplate s place
    split at h
    · exact readAs_readAmongTags h
    · exact readAs_readHere h

end Scanner

end Relocation.TypeScript

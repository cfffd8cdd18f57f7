import Relocation.Proofs.Escapes
import Relocation.Text.Blank

/-!
# The inside of a literal

`Inside` says what the characters between two quotes stand for, character by character and escape
by escape. It is what the reader computes: a literal that is closed, and one that is not, are read
as their inside says and no other way. From there on it is a matter of lists.

## Results

* `Body.read_eq_closed_iff`, `Body.read_eq_unclosed_iff`: when a literal is read as closed, and
  when as unclosed;
* `Inside.length_le`: a value is no longer than its spelling, and of the same length only if it is
  spelled by itself;
* `Inside.value_ne`: a space in place of a letter changes the value;
* `Inside.split_lineFeed`: a blank line in a literal starts behind a whole escape.
-/

namespace Relocation.TypeScript

open Text

/-- The characters that open and close a literal. -/
def IsQuote (c : Char) : Prop := c = '\'' ∨ c = '"'

/-- The inside of a literal and what it stands for. `next` is the character behind the inside. -/
inductive Inside (quote : Char) (next : Option Char) : List Char → List Char → Prop where
  | nil : Inside quote next [] []
  /-- A character that stands for itself. -/
  | plain {c : Char} {raw value : List Char} (hQuote : c ≠ quote) (hBreak : ¬(c = '\n' ∨ c = '\r'))
      (hEscape : c ≠ '\\') (hRest : Inside quote next raw value) :
      Inside quote next (c :: raw) (c :: value)
  /-- An escape. -/
  | escape {consumed decoded raw value : List Char}
      (hDecodes : Decodes (raw.head?.or next) consumed decoded)
      (hRest : Inside quote next raw value) :
      Inside quote next ('\\' :: (consumed ++ raw)) (decoded ++ value)

-- ---------------------------------------------------------------------------
-- Reading without a bound
-- ---------------------------------------------------------------------------

namespace Body

variable {quote : Char}

/-- A bound that suffices does not matter. -/
theorem readWithin_eq {fuel fuel' : Nat} {cs : List Char} (h : cs.length ≤ fuel)
    (h' : cs.length ≤ fuel') : readWithin quote fuel cs = readWithin quote fuel' cs := by
  induction fuel generalizing fuel' cs with
  | zero =>
    obtain rfl : cs = [] := List.length_eq_zero_iff.1 (by omega)
    cases fuel' <;> rfl
  | succ fuel ih =>
    cases cs with
    | nil => cases fuel' <;> rfl
    | cons c cs =>
      obtain ⟨fuel', rfl⟩ : ∃ n, fuel' = n + 1 := ⟨fuel' - 1, by simp at h'; omega⟩
      simp only [List.length_cons, Nat.add_le_add_iff_right] at h h'
      have hText : (Escape.read false cs).text = cs := Escape.text_read false cs
      simp only [readWithin, ih h h']
      cases hEscape : Escape.read false cs with
      | malformed => rfl
      | decoded consumed value rest =>
        rw [hEscape, Escape.text] at hText
        have hLength := congrArg List.length hText
        rw [List.length_append] at hLength
        have hRest : readWithin quote fuel rest = readWithin quote fuel' rest :=
          ih (by omega) (by omega)
        simp only [afterEscape, hRest]

theorem read_nil : read quote [] = ⟨[], [], .unclosed, []⟩ := rfl

theorem read_quote (cs : List Char) : read quote (quote :: cs) = ⟨[], [], .closed, cs⟩ := by
  rw [read, List.length_cons, readWithin, if_pos rfl]

theorem read_lineBreak {c : Char} {cs : List Char} (hQuote : c ≠ quote)
    (hBreak : c = '\n' ∨ c = '\r') : read quote (c :: cs) = ⟨[], [], .unclosed, c :: cs⟩ := by
  rw [read, List.length_cons, readWithin, if_neg hQuote, if_pos hBreak]

theorem read_plain {c : Char} {cs : List Char} (hQuote : c ≠ quote)
    (hBreak : ¬(c = '\n' ∨ c = '\r')) (hEscape : c ≠ '\\') :
    read quote (c :: cs) = (read quote cs).prepend [c] [c] := by
  rw [read, List.length_cons, readWithin, if_neg hQuote, if_neg hBreak, if_neg hEscape, read]

theorem read_escape {cs consumed value rest : List Char} (hQuote : '\\' ≠ quote)
    (h : Escape.read false cs = .decoded consumed value rest) :
    read quote ('\\' :: cs) = (read quote rest).prepend ('\\' :: consumed) value := by
  have hText : (Escape.read false cs).text = cs := Escape.text_read false cs
  rw [h, Escape.text] at hText
  have hLength := congrArg List.length hText
  rw [List.length_append] at hLength
  rw [read, List.length_cons, readWithin, if_neg hQuote, if_neg (by decide), if_pos rfl, h,
    afterEscape, read, readWithin_eq (by omega) (Nat.le_refl _)]

theorem read_malformed {cs consumed rest : List Char} (hQuote : '\\' ≠ quote)
    (h : Escape.read false cs = .malformed consumed rest) :
    read quote ('\\' :: cs) = ⟨'\\' :: consumed, [], .malformed 0, rest⟩ := by
  rw [read, List.length_cons, readWithin, if_neg hQuote, if_neg (by decide), if_pos rfl, h,
    afterEscape]

-- ---------------------------------------------------------------------------
-- Reading and the inside
-- ---------------------------------------------------------------------------

theorem prepend_nil (body : Body) : body.prepend [] [] = body := by
  obtain ⟨raw, value, ending, rest⟩ := body
  cases ending <;> simp [prepend]

theorem prepend_prepend (body : Body) (raw value raw' value' : List Char) :
    (body.prepend raw value).prepend raw' value'
      = body.prepend (raw' ++ raw) (value' ++ value) := by
  obtain ⟨raw, value, ending, rest⟩ := body
  cases ending <;> simp [prepend, Nat.add_assoc]

theorem ne_of_isQuote (h : IsQuote quote) : '\\' ≠ quote ∧ '\n' ≠ quote ∧ '\r' ≠ quote := by
  rcases h with rfl | rfl <;> decide

/-- An inside is read as what it stands for, and reading goes on behind it. -/
theorem read_append {raw value rest : List Char} (hQuote : IsQuote quote)
    (h : Inside quote rest.head? raw value) :
    read quote (raw ++ rest) = (read quote rest).prepend raw value := by
  induction h with
  | nil => rw [List.nil_append, prepend_nil]
  | plain hNe hBreak hEscape _ ih =>
    rw [List.cons_append, read_plain hNe hBreak hEscape, ih, prepend_prepend]
    rfl
  | @escape consumed decoded raw value hDecodes _ ih =>
    have hHead : (raw ++ rest).head? = raw.head?.or rest.head? := List.head?_append
    rw [← hHead] at hDecodes
    have hRead := Escape.read_of_decodes hDecodes
    rw [List.cons_append, List.append_assoc,
      read_escape (ne_of_isQuote hQuote).1 hRead, ih, prepend_prepend]
    rfl

/-- What has been read is an inside, up to the quote or to the end of the line, unless an escape in
it is malformed. -/
def IsInside (quote : Char) (body : Body) : Prop :=
  match body.ending with
  | .closed => Inside quote (some quote) body.raw body.value
  | .unclosed =>
    Inside quote body.rest.head? body.raw body.value ∧
      body.rest.head?.all fun c => c = '\n' ∨ c = '\r'
  | .malformed _ => True

/-- A character that stands for itself goes in front of an inside. -/
theorem IsInside.prepend_plain {body : Body} (h : body.IsInside quote) {c : Char}
    (hQuote : c ≠ quote) (hBreak : ¬(c = '\n' ∨ c = '\r')) (hEscape : c ≠ '\\') :
    (body.prepend [c] [c]).IsInside quote := by
  obtain ⟨raw, value, ending, rest⟩ := body
  cases ending with
  | closed => exact .plain hQuote hBreak hEscape h
  | unclosed => exact ⟨.plain hQuote hBreak hEscape h.1, h.2⟩
  | malformed => trivial

/-- An escape goes in front of an inside. -/
theorem IsInside.prepend_escape {body : Body} (h : body.IsInside quote)
    {consumed decoded : List Char} (hDecodes : Decodes (body.text quote).head? consumed decoded) :
    (body.prepend ('\\' :: consumed) decoded).IsInside quote := by
  obtain ⟨raw, value, ending, rest⟩ := body
  cases ending with
  | closed =>
    have hHead : (text quote ⟨raw, value, .closed, rest⟩).head? = raw.head?.or (some quote) := by
      rw [text, if_pos rfl, List.append_assoc, List.head?_append]
      rfl
    rw [hHead] at hDecodes
    exact .escape hDecodes h
  | unclosed =>
    have hHead : (text quote ⟨raw, value, .unclosed, rest⟩).head? = raw.head?.or rest.head? := by
      rw [text, if_neg (by simp), List.append_nil, List.head?_append]
    rw [hHead] at hDecodes
    exact ⟨.escape hDecodes h.1, h.2⟩
  | malformed => trivial

/-- What is read is an inside, unless an escape in it is malformed. -/
theorem isInside_read (hQuote : IsQuote quote) (cs : List Char) :
    (read quote cs).IsInside quote := by
  induction hLength : cs.length using Nat.strongRecOn generalizing cs with
  | _ n ih =>
    subst hLength
    cases cs with
    | nil => exact ⟨.nil, rfl⟩
    | cons c cs =>
      by_cases hc : c = quote
      · subst hc
        rw [read_quote]
        exact .nil
      by_cases hBreak : c = '\n' ∨ c = '\r'
      · rw [read_lineBreak hc hBreak]
        exact ⟨.nil, by simpa using hBreak⟩
      by_cases hEscape : c = '\\'
      · subst hEscape
        cases hRead : Escape.read false cs with
        | malformed consumed rest =>
          rw [read_malformed hc hRead]
          trivial
        | decoded consumed value rest =>
          obtain ⟨rfl, hDecodes⟩ := Escape.read_eq_decoded_iff.1 hRead
          rw [read_escape hc hRead]
          rw [← text_read quote rest] at hDecodes
          refine (ih rest.length ?_ rest rfl).prepend_escape hDecodes
          rw [List.length_cons, List.length_append]
          omega
      · rw [read_plain hc hBreak hEscape]
        exact (ih cs.length (by simp) cs rfl).prepend_plain hc hBreak hEscape

/-- A literal is read as closed if and only if its inside ends with the quote. -/
theorem read_eq_closed_iff {cs raw value rest : List Char} (hQuote : IsQuote quote) :
    read quote cs = ⟨raw, value, .closed, rest⟩ ↔
      cs = raw ++ quote :: rest ∧ Inside quote (some quote) raw value := by
  constructor
  · intro h
    have hText : (read quote cs).text quote = cs := text_read quote cs
    have hInside := isInside_read hQuote cs
    rw [h] at hText hInside
    refine ⟨?_, hInside⟩
    rw [← hText, text, if_pos rfl, List.append_assoc]
    rfl
  · rintro ⟨rfl, hInside⟩
    have hNext : Inside quote (quote :: rest).head? raw value := hInside
    rw [read_append hQuote hNext, read_quote, prepend]
    simp

/-- A literal is read as unclosed if and only if its inside ends with the line or the text. -/
theorem read_eq_unclosed_iff {cs raw value rest : List Char} (hQuote : IsQuote quote) :
    read quote cs = ⟨raw, value, .unclosed, rest⟩ ↔
      cs = raw ++ rest ∧ Inside quote rest.head? raw value ∧
        (rest.head?.all fun c => c = '\n' ∨ c = '\r') = true := by
  constructor
  · intro h
    have hText : (read quote cs).text quote = cs := text_read quote cs
    have hInside := isInside_read hQuote cs
    rw [h] at hText hInside
    refine ⟨?_, hInside⟩
    rw [← hText, text, if_neg (by simp), List.append_nil]
  · rintro ⟨rfl, hInside, hEnd⟩
    obtain ⟨-, hFeed, hReturn⟩ := ne_of_isQuote hQuote
    rw [read_append hQuote hInside]
    cases rest with
    | nil => simp [read_nil, prepend]
    | cons c cs =>
      have hBreak : c = '\n' ∨ c = '\r' := by simpa using hEnd
      have hc : c ≠ quote := by rcases hBreak with rfl | rfl <;> assumption
      rw [read_lineBreak hc hBreak, prepend]
      simp

end Body

namespace Inside

variable {quote : Char} {next next' : Option Char}

/-- An inside that starts without an escape. -/
theorem of_cons {c : Char} {raw value : List Char} (h : Inside quote next (c :: raw) value)
    (hEscape : c ≠ '\\') :
    c ≠ quote ∧ ¬(c = '\n' ∨ c = '\r') ∧
      ∃ value', value = c :: value' ∧ Inside quote next raw value' := by
  generalize hText : c :: raw = text at h
  cases h with
  | nil => contradiction
  | plain hQuote hBreak _ hRest =>
    obtain ⟨rfl, rfl⟩ := List.cons.inj hText
    exact ⟨hQuote, hBreak, _, rfl, hRest⟩
  | escape => exact absurd (List.cons.inj hText).1 hEscape

/-- An inside that starts with an escape. -/
theorem of_escape {text value : List Char} (h : Inside quote next ('\\' :: text) value) :
    ∃ consumed decoded raw value', text = consumed ++ raw ∧ value = decoded ++ value' ∧
      Decodes (raw.head?.or next) consumed decoded ∧ Inside quote next raw value' := by
  generalize hText : '\\' :: text = whole at h
  cases h with
  | nil => contradiction
  | plain _ _ hEscape => exact absurd (List.cons.inj hText).1.symm hEscape
  | escape hDecodes hRest => exact ⟨_, _, _, _, (List.cons.inj hText).2, rfl, hDecodes, hRest⟩

-- ---------------------------------------------------------------------------
-- Lengths
-- ---------------------------------------------------------------------------

/-- A value is no longer than its spelling, and as long as it only if it is spelled by itself. -/
theorem length_le {raw value : List Char} (h : Inside quote next raw value) :
    value = raw ∨ byteLength value < byteLength raw := by
  induction h with
  | nil => exact .inl rfl
  | plain _ _ _ _ ih =>
    rcases ih with rfl | ih
    · exact .inl rfl
    · right
      simp only [byteLength_cons]
      omega
  | @escape consumed decoded raw value hDecodes _ ih =>
    have hSlash : '\\'.utf8Size = 1 := by decide
    rcases hDecodes.length_le with rfl | hShort
    · rcases ih with rfl | ih
      · exact .inl rfl
      · right
        simp only [byteLength_cons, byteLength_append]
        omega
    · right
      have hRest : byteLength value ≤ byteLength raw := by
        rcases ih with rfl | ih <;> omega
      simp only [byteLength_cons, byteLength_append]
      omega

-- ---------------------------------------------------------------------------
-- One text in place of another
-- ---------------------------------------------------------------------------

/-- The first character of a text that goes on with `next`. -/
theorem head?_toList (raw : List Char) (next : Option Char) :
    (raw ++ next.toList).head? = raw.head?.or next := by
  rw [List.head?_append]
  cases next <;> rfl

/-- A text starts with one escape at most, whatever it goes on with. -/
theorem decodes_unique {consumed consumed' value value' rest rest' : List Char}
    (hText : consumed ++ rest = consumed' ++ rest')
    (h : Decodes (rest.head?.or next) consumed value)
    (h' : Decodes (rest'.head?.or next) consumed' value') :
    consumed = consumed' ∧ value = value' ∧ rest = rest' := by
  rw [← head?_toList] at h h'
  have hRead := Escape.read_of_decodes h
  rw [← List.append_assoc, hText, List.append_assoc, Escape.read_of_decodes h'] at hRead
  injection hRead with hConsumed hValue hRest
  exact ⟨hConsumed.symm, hValue.symm, (List.append_cancel_right hRest).symm⟩

/-- A character that means nothing special in a literal, neither by itself nor behind a backslash.
-/
structure Ordinary (quote c : Char) : Prop where
  digit : isHexDigit c = false
  plain : c ∉ ['\r', '\n', '\u2028', '\u2029', 'x', 'u', '{', '}', '\\']
  letter : Escape.letterValue c = c
  quote : c ≠ quote

theorem Ordinary.inert {c : Char} (h : Ordinary quote c) : Decodes.Inert (some c) := by
  refine ⟨?_, fun hFeed => h.plain (by rw [Option.some.inj hFeed]; simp)⟩
  simp [octalNext, Decodes.digitValue_eq_none h.digit]

theorem Ordinary.decodes {c : Char} (h : Ordinary quote c) {front behind value : List Char}
    (hDecodes : Decodes next (front ++ c :: behind) value) :
    (front = [] ∧ behind = [] ∧ value = [c]) ∨ value = '\\' :: (front ++ c :: behind) :=
  hDecodes.of_plain h.digit (fun hMem => h.plain (by simp only [List.mem_cons] at hMem ⊢; tauto))
    h.letter

/-- Behind a front part, an ordinary character may stand in place of another one as far as the
escapes in that part go. -/
theorem decodes_of_ordinary {c d : Char} {consumed value more behind : List Char}
    (hc : Ordinary quote c) (hd : Ordinary quote d)
    (h : Decodes (((more ++ c :: behind).head?).or next) consumed value) (next' : Option Char)
    (behind' : List Char) :
    Decodes (((more ++ d :: behind').head?).or next') consumed value := by
  cases more with
  | nil => exact h.of_next (.inr ⟨hc.inert, hd.inert⟩)
  | cons => exact h

/-- Two texts that agree up to two ordinary characters start with the same escape, unless it holds
the character; then it stands for different texts. -/
theorem decodes_compare {c d : Char}
    {front raw raw' consumed decoded rest consumed' decoded' rest' : List Char}
    (hc : Ordinary quote c) (hd : Ordinary quote d)
    (hText : front ++ c :: raw = consumed ++ rest)
    (hText' : front ++ d :: raw' = consumed' ++ rest')
    (h : Decodes (rest.head?.or next) consumed decoded)
    (h' : Decodes (rest'.head?.or next') consumed' decoded') :
    (∃ more, front = consumed ++ more ∧ rest = more ++ c :: raw ∧ consumed' = consumed ∧
        decoded' = decoded ∧ rest' = more ++ d :: raw') ∨
      (∃ more, consumed = front ++ c :: more) ∧ ∃ more, consumed' = front ++ d :: more := by
  rcases cut_cases hText.symm with ⟨more, rfl, rfl⟩ | ⟨more, hConsumed, -⟩
  · -- the first text has its escape in front of the character, and so has the second
    have hOther := decodes_of_ordinary hc hd h next' raw'
    rw [List.append_assoc] at hText'
    obtain ⟨rfl, rfl, rfl⟩ := decodes_unique hText' hOther h'
    exact .inl ⟨more, rfl, rfl, rfl, rfl, rfl⟩
  rcases cut_cases hText'.symm with ⟨more', rfl, rfl⟩ | ⟨more', hConsumed', -⟩
  · exfalso
    have hOther := decodes_of_ordinary hd hc h' next raw
    rw [List.append_assoc] at hText
    obtain ⟨rfl, -, -⟩ := decodes_unique hText hOther h
    have hLength := congrArg List.length hConsumed
    simp only [List.length_append, List.length_cons] at hLength
    omega
  · exact .inr ⟨⟨more, hConsumed⟩, more', hConsumed'⟩

/-- Where two insides first differ by two ordinary characters, they stand for different texts. -/
theorem value_ne {c d : Char} {front raw raw' value value' : List Char} (hc : Ordinary quote c)
    (hd : Ordinary quote d) (hNe : c ≠ d) (h : Inside quote next (front ++ c :: raw) value)
    (h' : Inside quote next' (front ++ d :: raw') value') : value ≠ value' := by
  have hcSlash : c ≠ '\\' := fun hEq => hc.plain (by rw [hEq]; simp)
  have hdSlash : d ≠ '\\' := fun hEq => hd.plain (by rw [hEq]; simp)
  generalize hText : front ++ c :: raw = text at h
  induction h generalizing front value' with
  | nil => simp at hText
  | @plain e rest value hQuote hBreak hEscape hRest ih =>
    cases front with
    | nil =>
      obtain ⟨rfl, rfl⟩ := List.cons.inj hText
      obtain ⟨-, -, _, rfl, -⟩ := of_cons h' hdSlash
      simp [hNe]
    | cons f front =>
      obtain ⟨rfl, rfl⟩ := List.cons.inj hText
      obtain ⟨-, -, _, rfl, hRest'⟩ := of_cons h' hEscape
      simpa using ih hRest' rfl
  | @escape consumed decoded rest value hDecodes hRest ih =>
    cases front with
    | nil => exact absurd (List.cons.inj hText).1 hcSlash
    | cons f front =>
      obtain ⟨rfl, hTail⟩ := List.cons.inj hText
      obtain ⟨consumed', decoded', rest', value', hText', rfl, hDecodes', hRest'⟩ := of_escape h'
      rcases decodes_compare hc hd hTail hText' hDecodes hDecodes' with
        ⟨more, rfl, rfl, rfl, rfl, rfl⟩ | ⟨⟨more, rfl⟩, ⟨more', rfl⟩⟩
      · simpa using ih hRest' rfl
      · rcases hc.decodes hDecodes with ⟨rfl, -, rfl⟩ | rfl <;>
          rcases hd.decodes hDecodes' with ⟨hFront, -, rfl⟩ | rfl
        · simp [hNe]
        · simp [hcSlash]
        · simp [hdSlash.symm]
        · simp [hNe]

-- ---------------------------------------------------------------------------
-- Blank lines
-- ---------------------------------------------------------------------------

/-- If an escape holds a line feed, and no brace comes soon after, it ends there; so a text that
starts alike up to the line feed has the same escape. -/
theorem decodes_of_lineFeed {front more raw raw' rest rest' decoded consumed' decoded' : List Char}
    (hBrace : '}' ∉ raw.take 2) (h : Decodes next (front ++ '\n' :: more) decoded)
    (hRaw : raw = more ++ rest) (hText : front ++ '\n' :: raw' = consumed' ++ rest')
    (h' : Decodes (rest'.head?.or next') consumed' decoded') :
    rest = raw ∧ decoded' = decoded ∧ rest' = raw' := by
  rcases h.of_lineFeed with ⟨rfl, hAny⟩ | ⟨between, rfl, hLength⟩
  · have hSame : (front ++ ['\n']) ++ raw' = consumed' ++ rest' := by
      rw [← hText]
      simp
    obtain ⟨rfl, rfl, rfl⟩ := decodes_unique hSame (hAny _) h'
    exact ⟨hRaw.symm, rfl, rfl⟩
  · refine absurd ?_ hBrace
    rw [hRaw]
    match between, hLength with
    | [], _ => simp
    | [c], _ => simp

/-- Behind a line feed in a literal no escape is pending, unless a brace closes one. So two insides
that agree up to there stand for the same text so far. -/
theorem split_lineFeed {front raw raw' value value' : List Char} (hBrace : '}' ∉ raw.take 2)
    (h : Inside quote next (front ++ '\n' :: raw) value)
    (h' : Inside quote next' (front ++ '\n' :: raw') value') :
    ∃ shared rest rest', value = shared ++ rest ∧ value' = shared ++ rest' ∧
      Inside quote next raw rest ∧ Inside quote next' raw' rest' := by
  generalize hText : front ++ '\n' :: raw = text at h
  induction h generalizing front value' with
  | nil => simp at hText
  | @plain e rest value hQuote hBreak hEscape hRest ih =>
    cases front with
    | nil => exact absurd (.inl (List.cons.inj hText).1.symm) hBreak
    | cons f front =>
      obtain ⟨rfl, rfl⟩ := List.cons.inj hText
      obtain ⟨-, -, value', rfl, hRest'⟩ := of_cons h' hEscape
      obtain ⟨shared, v, v', rfl, rfl, hRaw, hRaw'⟩ := ih hRest' rfl
      exact ⟨f :: shared, v, v', rfl, rfl, hRaw, hRaw'⟩
  | @escape consumed decoded rest value hDecodes hRest ih =>
    cases front with
    | nil => exact absurd (List.cons.inj hText).1 (by decide)
    | cons f front =>
      obtain ⟨rfl, hTail⟩ := List.cons.inj hText
      obtain ⟨consumed', decoded', rest', value', hText', rfl, hDecodes', hRest'⟩ := of_escape h'
      have hText' : front ++ '\n' :: raw' = consumed' ++ rest' := hText'
      rcases cut_cases hTail.symm with ⟨more, rfl, rfl⟩ | ⟨more, rfl, hRaw⟩
      · -- both texts have the escape in front of the line feed
        have hOther : Decodes ((more ++ '\n' :: raw').head?.or next') consumed decoded := by
          cases more <;> exact hDecodes
        rw [List.append_assoc] at hText'
        obtain ⟨rfl, rfl, rfl⟩ := decodes_unique hText' hOther hDecodes'
        obtain ⟨shared, v, v', rfl, rfl, hRaw, hRaw'⟩ := ih hRest' rfl
        exact ⟨decoded ++ shared, v, v', by rw [List.append_assoc], by rw [List.append_assoc],
          hRaw, hRaw'⟩
      · obtain ⟨rfl, rfl, rfl⟩ := decodes_of_lineFeed hBrace hDecodes hRaw hText' hDecodes'
        exact ⟨decoded', value, value', rfl, rfl, hRest, hRest'⟩

/-- A blank line of a literal stands for itself, and nothing follows it in the literal. -/
theorem of_blankLine {raw value : List Char} (h : Inside quote next raw value)
    (hBlank : allBlank (raw.takeWhile (· ≠ '\n')) = true) :
    value = raw ∧ raw.takeWhile (· ≠ '\n') = raw := by
  induction h with
  | nil => exact ⟨rfl, rfl⟩
  | @plain c raw value hQuote hBreak hEscape _ ih =>
    have hc : c ≠ '\n' := fun hEq => hBreak (.inl hEq)
    have hTake : (c :: raw).takeWhile (· ≠ '\n') = c :: raw.takeWhile (· ≠ '\n') :=
      List.takeWhile_cons_of_pos (by simpa using hc)
    rw [hTake] at hBlank ⊢
    simp only [allBlank, List.all_cons, Bool.and_eq_true] at hBlank
    obtain ⟨rfl, hRaw⟩ := ih hBlank.2
    exact ⟨rfl, by rw [hRaw]⟩
  | escape =>
    have hSlash : isBlank '\\' = false := by decide
    simp [allBlank, hSlash] at hBlank

end Inside

end Relocation.TypeScript

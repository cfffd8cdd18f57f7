import Mathlib.Algebra.Ring.Nat
import Relocation.Proofs.Text.Cuts
import Relocation.TypeScript.StringLiteral

/-!
# What an escape is

`Decodes` lists the escapes that a string literal may hold, each with what it stands for. Reading
an escape finds exactly these (`read_eq_decoded_iff`), so that what is needed of escapes further on
is said of the list and not of the reader. How far an escape reaches may depend on the character
behind it, but on no more than that one.

## Results

* `Escape.read_eq_decoded_iff`: the reader and the list agree;
* `Decodes.of_next`, `Decodes.of_lineFeed`: when the character behind an escape may be another one;
* `Decodes.length_le`: an escape is longer than what it stands for, unless it keeps its spelling.
-/

namespace Relocation.TypeScript

open Text

-- ---------------------------------------------------------------------------
-- Digits
-- ---------------------------------------------------------------------------

/-- Whether the character is a hexadecimal digit. -/
def isHexDigit (c : Char) : Bool := (digitValue? 16 c).isSome

/-- Whether an octal digit comes next. -/
def octalNext (next : Option Char) : Bool := (next.bind (digitValue? 8)).isSome

theorem not_mem_digits {digits : List Char} {c : Char} (hDigits : digits.all isHexDigit = true)
    (hDigit : isHexDigit c = false) : c ∉ digits := by
  intro hMem
  rw [List.all_eq_true.1 hDigits c hMem] at hDigit
  contradiction

/-- Digits that are split off are digits, and no more of them than the limit. -/
theorem spanHex_spec {limit : Nat} {cs digits rest : List Char}
    (h : spanHex limit cs = (digits, rest)) :
    cs = digits ++ rest ∧ digits.all isHexDigit = true ∧ digits.length ≤ limit := by
  fun_induction spanHex limit cs generalizing digits with
  | case1 cs =>
    obtain ⟨rfl, rfl⟩ := Prod.mk.inj h
    simp
  | case2 =>
    obtain ⟨rfl, rfl⟩ := Prod.mk.inj h
    simp
  | case3 limit c cs hDigit digits' rest' hRest ih =>
    obtain ⟨rfl, rfl⟩ := Prod.mk.inj h
    obtain ⟨rfl, hAll, hLength⟩ := ih hRest
    refine ⟨rfl, ?_, by simpa using hLength⟩
    simp only [List.all_cons, Bool.and_eq_true]
    exact ⟨hDigit, hAll⟩
  | case4 =>
    obtain ⟨rfl, rfl⟩ := Prod.mk.inj h
    simp

/-- As many digits as the limit allows are split off whatever follows. -/
theorem spanHex_append_of_length {digits : List Char} {limit : Nat} (rest : List Char)
    (hAll : digits.all isHexDigit = true) (hLength : digits.length = limit) :
    spanHex limit (digits ++ rest) = (digits, rest) := by
  subst hLength
  induction digits with
  | nil => cases rest <;> rfl
  | cons c cs ih =>
    simp only [List.all_cons, Bool.and_eq_true] at hAll
    have hDigit : (digitValue? 16 c).isSome = true := hAll.1
    rw [List.length_cons, List.cons_append, spanHex, if_pos hDigit, ih hAll.2]

/-- Digits are split off up to a character that is none. -/
theorem spanHex_append_of_stop {digits : List Char} {limit : Nat} {c : Char} (rest : List Char)
    (hAll : digits.all isHexDigit = true) (hStop : isHexDigit c = false)
    (hLimit : digits.length < limit) :
    spanHex limit (digits ++ c :: rest) = (digits, c :: rest) := by
  induction digits generalizing limit with
  | nil =>
    obtain ⟨limit, rfl⟩ : ∃ n, limit = n + 1 := ⟨limit - 1, by simp at hLimit; omega⟩
    have hStop : ¬ (digitValue? 16 c).isSome = true := by simpa [isHexDigit] using hStop
    rw [List.nil_append, spanHex, if_neg hStop]
  | cons d ds ih =>
    simp only [List.all_cons, Bool.and_eq_true] at hAll
    obtain ⟨limit, rfl⟩ : ∃ n, limit = n + 1 := ⟨limit - 1, by simp at hLimit; omega⟩
    have hDigit : (digitValue? 16 d).isSome = true := hAll.1
    rw [List.cons_append, spanHex, if_pos hDigit, ih hAll.2 (by simpa using hLimit)]

-- ---------------------------------------------------------------------------
-- The escapes
-- ---------------------------------------------------------------------------

/-- The octal digits behind the first one. They end where the limit is reached, where no digit
follows, or where the character would not stay below 256. -/
inductive OctalRun (next : Option Char) : Nat → Nat → List Char → Nat → Prop where
  | full (value : Nat) : OctalRun next 0 value [] value
  | done (limit value : Nat)
      (hStop : ∀ digit, next.bind (digitValue? 8) = some digit → 256 ≤ value * 8 + digit) :
      OctalRun next limit value [] value
  | digit {limit value digit value' : Nat} {c : Char} {cs : List Char}
      (hDigit : digitValue? 8 c = some digit) (hSmall : value * 8 + digit < 256)
      (hRest : OctalRun next limit (value * 8 + digit) cs value') :
      OctalRun next (limit + 1) value (c :: cs) value'

/-- The escapes of a string literal, without the backslash: the characters as written, and those
that they stand for. `next` is the character behind the escape. -/
inductive Decodes (next : Option Char) : List Char → List Char → Prop where
  /-- A line break of two characters, which stands for nothing. -/
  | lineBreakPair : Decodes next ['\r', '\n'] []
  /-- A line break, which stands for nothing. -/
  | lineBreak (c : Char) (hBreak : c = '\r' ∨ c = '\n' ∨ c = '\u2028' ∨ c = '\u2029')
      (hPair : c = '\r' → next ≠ some '\n') : Decodes next [c] []
  /-- A character by two digits. -/
  | twoDigits (digits : List Char) (hDigits : digits.all isHexDigit = true)
      (hLength : digits.length = 2) :
      Decodes next ('x' :: digits) [Char.ofNat (hexValue digits)]
  /-- A character by four digits. -/
  | fourDigits (digits : List Char) (hDigits : digits.all isHexDigit = true)
      (hLength : digits.length = 4) (hSurrogate : isSurrogate (hexValue digits) = false) :
      Decodes next ('u' :: digits) [Char.ofNat (hexValue digits)]
  /-- A surrogate by four digits, which keeps its spelling. -/
  | surrogate (digits : List Char) (hDigits : digits.all isHexDigit = true)
      (hLength : digits.length = 4) (hSurrogate : isSurrogate (hexValue digits) = true) :
      Decodes next ('u' :: digits) ('\\' :: 'u' :: digits)
  /-- A character by digits in braces. -/
  | braced (digits : List Char) (hDigits : digits.all isHexDigit = true) (hSome : digits ≠ [])
      (hBound : hexValue digits ≤ 0x10ffff)
      (hSurrogate : isSurrogate (hexValue digits) = false) :
      Decodes next ('u' :: '{' :: digits ++ ['}']) [Char.ofNat (hexValue digits)]
  /-- A surrogate in braces, which keeps its spelling. Behind the digits other characters may
  stand before the brace. -/
  | bracedSurrogate (digits more : List Char) (hDigits : digits.all isHexDigit = true)
      (hMore : more.head?.any isHexDigit = false) (hBrace : '}' ∉ more)
      (hLength : digits.length + more.length ≤ 6) (hBound : hexValue digits ≤ 0x10ffff)
      (hSurrogate : isSurrogate (hexValue digits) = true) :
      Decodes next ('u' :: '{' :: (digits ++ more) ++ ['}'])
        ('\\' :: 'u' :: '{' :: (digits ++ more) ++ ['}'])
  /-- The zero character, if no octal digit follows. -/
  | zero (hNext : octalNext next = false) : Decodes next ['0'] ['\x00']
  /-- A character by octal digits. -/
  | octal {c : Char} {cs : List Char} {digit value : Nat} (hDigit : digitValue? 8 c = some digit)
      (hZero : c = '0' → octalNext (cs.head?.or next) = true)
      (hRun : OctalRun next 2 digit cs value) : Decodes next (c :: cs) [Char.ofNat value]
  /-- A character that stands for itself or for a control character. -/
  | letter (c : Char)
      (hPlain : c ≠ '\r' ∧ c ≠ '\n' ∧ c ≠ '\u2028' ∧ c ≠ '\u2029' ∧ c ≠ 'x' ∧ c ≠ 'u')
      (hDigit : digitValue? 8 c = none) : Decodes next [c] [Escape.letterValue c]

namespace Escape

-- ---------------------------------------------------------------------------
-- What the reader finds
-- ---------------------------------------------------------------------------

theorem spanToBrace_spec {limit : Nat} {cs spelled rest : List Char}
    (h : spanToBrace limit cs = (spelled, rest)) :
    cs = spelled ++ rest ∧ '}' ∉ spelled ∧ spelled.length ≤ limit := by
  fun_induction spanToBrace limit cs generalizing spelled with
  | case1 cs =>
    obtain ⟨rfl, rfl⟩ := Prod.mk.inj h
    simp
  | case2 =>
    obtain ⟨rfl, rfl⟩ := Prod.mk.inj h
    simp
  | case3 =>
    obtain ⟨rfl, rfl⟩ := Prod.mk.inj h
    simp
  | case4 limit c cs hBrace spelled' rest' hRest ih =>
    obtain ⟨rfl, rfl⟩ := Prod.mk.inj h
    obtain ⟨rfl, hNotMem, hLength⟩ := ih hRest
    refine ⟨rfl, ?_, by simpa using hLength⟩
    rw [List.mem_cons, not_or]
    exact ⟨fun hEq => hBrace hEq.symm, hNotMem⟩

theorem spanToBrace_of_brace {spelled : List Char} {limit : Nat} (rest : List Char)
    (hBrace : '}' ∉ spelled) (hLimit : spelled.length ≤ limit) :
    spanToBrace limit (spelled ++ '}' :: rest) = (spelled, '}' :: rest) := by
  induction spelled generalizing limit with
  | nil => cases limit <;> rfl
  | cons c cs ih =>
    obtain ⟨limit, rfl⟩ : ∃ n, limit = n + 1 := ⟨limit - 1, by simp at hLimit; omega⟩
    rw [List.mem_cons, not_or] at hBrace
    rw [List.cons_append, spanToBrace, if_neg (fun hEq => hBrace.1 hEq.symm),
      ih hBrace.2 (by simpa using hLimit)]

theorem decodes_of_closeBrace {opened opened' value rest consumed value' rest' : List Char}
    (h : closeBrace opened value rest = decoded consumed value' rest')
    (hOpened : opened = opened') :
    rest = '}' :: rest' ∧ consumed = opened' ++ ['}'] ∧ value' = value := by
  unfold closeBrace at h
  split at h
  · injection h with hConsumed hValue hRest
    subst hConsumed hValue hRest hOpened
    exact ⟨rfl, rfl, rfl⟩
  · contradiction

theorem decodes_of_twoDigits {cs consumed value rest : List Char}
    (h : twoDigits cs = decoded consumed value rest) : Decodes rest.head? consumed value := by
  unfold twoDigits at h
  obtain ⟨digits, rest', hSpan⟩ : ∃ digits rest', spanHex 2 cs = (digits, rest') := ⟨_, _, rfl⟩
  obtain ⟨-, hDigits, hLimit⟩ := spanHex_spec hSpan
  simp only [hSpan] at h
  split at h
  · contradiction
  · rename_i hShort
    injection h with hConsumed hValue hRest
    subst hConsumed hValue
    exact .twoDigits digits hDigits (by omega)

theorem decodes_of_fourDigits {cs consumed value rest : List Char}
    (h : fourDigits cs = decoded consumed value rest) : Decodes rest.head? consumed value := by
  unfold fourDigits at h
  obtain ⟨digits, rest', hSpan⟩ : ∃ digits rest', spanHex 4 cs = (digits, rest') := ⟨_, _, rfl⟩
  obtain ⟨-, hDigits, hLimit⟩ := spanHex_spec hSpan
  simp only [hSpan] at h
  split at h
  · contradiction
  · rename_i hShort
    have hLength : digits.length = 4 := by omega
    cases hSurrogate : isSurrogate (hexValue digits) with
    | true =>
      rw [hSurrogate, if_pos rfl] at h
      injection h with hConsumed hValue hRest
      subst hConsumed hValue
      exact .surrogate digits hDigits hLength hSurrogate
    | false =>
      rw [hSurrogate, if_neg Bool.false_ne_true] at h
      injection h with hConsumed hValue hRest
      subst hConsumed hValue
      exact .fourDigits digits hDigits hLength hSurrogate

/-- Behind the digits that are split off with a limit that suffices stands no digit. -/
theorem head_of_spanHex {limit : Nat} {cs digits rest : List Char}
    (h : spanHex limit cs = (digits, rest)) (hLimit : cs.length ≤ limit) :
    rest.head?.any isHexDigit = false := by
  fun_induction spanHex limit cs generalizing digits with
  | case1 cs =>
    obtain ⟨rfl, rfl⟩ := Prod.mk.inj h
    have hNil : cs = [] := List.length_eq_zero_iff.1 (by omega)
    rw [hNil]
    rfl
  | case2 =>
    obtain ⟨rfl, rfl⟩ := Prod.mk.inj h
    rfl
  | case3 limit c cs hDigit digits' rest' hRest ih =>
    obtain ⟨rfl, rfl⟩ := Prod.mk.inj h
    exact ih hRest (by simpa using hLimit)
  | case4 limit c cs hDigit =>
    obtain ⟨rfl, rfl⟩ := Prod.mk.inj h
    simpa [isHexDigit] using hDigit

/-- A surrogate is spelled by its digits and what stands between them and the brace. -/
theorem decodes_of_bracedSurrogate {digits spelled behind rest : List Char}
    (hParts : digits ++ behind = spelled ++ '}' :: rest) (hDigits : digits.all isHexDigit = true)
    (hBehind : behind.head?.any isHexDigit = false) (hBrace : '}' ∉ spelled)
    (hLength : spelled.length ≤ 6) (hBound : hexValue digits ≤ 0x10ffff)
    (hSurrogate : isSurrogate (hexValue digits) = true) :
    Decodes rest.head? ('u' :: '{' :: spelled ++ ['}'])
      ('\\' :: 'u' :: '{' :: spelled ++ ['}']) := by
  obtain ⟨more, rfl, rfl⟩ := eq_append_of_notMem hParts (not_mem_digits hDigits (by decide))
  have hMore : more.head?.any isHexDigit = false := by
    cases more with
    | nil => rfl
    | cons c more => exact hBehind
  rw [List.length_append] at hLength
  exact .bracedSurrogate digits more hDigits hMore
    (fun hMem => hBrace (List.mem_append_right _ hMem)) hLength hBound hSurrogate

theorem decodes_of_braced {cs consumed value rest : List Char}
    (h : braced cs = decoded consumed value rest) : Decodes rest.head? consumed value := by
  unfold braced at h
  obtain ⟨digits, rest', hSpan⟩ : ∃ digits rest', spanHex cs.length cs = (digits, rest') :=
    ⟨_, _, rfl⟩
  obtain ⟨hParts, hDigits, -⟩ := spanHex_spec hSpan
  simp only [hSpan] at h
  split at h
  · contradiction
  · rename_i hRange
    obtain ⟨hSome, hBound⟩ := not_or.1 hRange
    cases hSurrogate : isSurrogate (hexValue digits) with
    | false =>
      rw [hSurrogate, if_neg Bool.false_ne_true] at h
      obtain ⟨-, rfl, rfl⟩ := decodes_of_closeBrace h rfl
      exact .braced digits hDigits hSome (by omega) hSurrogate
    | true =>
      rw [hSurrogate, if_pos rfl] at h
      obtain ⟨spelled, rest₂, hSpelled⟩ : ∃ spelled rest₂, spanToBrace 6 cs = (spelled, rest₂) :=
        ⟨_, _, rfl⟩
      obtain ⟨hParts', hBrace, hLength⟩ := spanToBrace_spec hSpelled
      simp only [hSpelled] at h
      obtain ⟨rfl, rfl, rfl⟩ := decodes_of_closeBrace h rfl
      exact decodes_of_bracedSurrogate (hParts.symm.trans hParts') hDigits
        (head_of_spanHex hSpan (Nat.le_refl _)) hBrace hLength (by omega) hSurrogate

theorem decodes_of_unicode {cs consumed value rest : List Char}
    (h : unicode cs = decoded consumed value rest) : Decodes rest.head? consumed value := by
  unfold unicode at h
  split at h
  · exact decodes_of_braced h
  · exact decodes_of_fourDigits h

theorem octalRun_of_octal {limit value : Nat} {opened cs consumed value' rest : List Char}
    (h : octal limit opened value cs = decoded consumed value' rest) :
    ∃ digits n, consumed = opened ++ digits ∧ value' = [Char.ofNat n] ∧
      OctalRun rest.head? limit value digits n := by
  fun_induction octal limit opened value cs with
  | case1 limit opened value c cs digit hDigit hSmall ih =>
    obtain ⟨digits, n, rfl, rfl, hRun⟩ := ih h
    exact ⟨c :: digits, n, by simp, rfl, .digit hDigit hSmall hRun⟩
  | case2 limit opened value c cs digit hDigit hLarge =>
    injection h with hConsumed hValue hRest
    subst hConsumed hValue hRest
    refine ⟨[], value, by simp, rfl, .done _ _ fun digit' hDigit' => ?_⟩
    have hSame : digit = digit' := Option.some.inj (hDigit.symm.trans hDigit')
    omega
  | case3 limit opened value c cs hNone =>
    injection h with hConsumed hValue hRest
    subst hConsumed hValue hRest
    refine ⟨[], value, by simp, rfl, .done _ _ fun digit' hDigit' => ?_⟩
    have hSame : none = some digit' := hNone.symm.trans hDigit'
    contradiction
  | case4 limit opened value cs hEnd =>
    injection h with hConsumed hValue hRest
    subst hConsumed hValue hRest
    refine ⟨[], value, by simp, rfl, ?_⟩
    cases cs with
    | nil => exact .done _ _ (by simp)
    | cons c cs =>
      cases limit with
      | zero => exact .full value
      | succ limit => exact absurd rfl (hEnd limit c cs rfl)

theorem octalNext_eq_false_iff {next : Option Char} :
    octalNext next = false ↔ (next.bind (digitValue? 8)).isNone = true := by
  rw [octalNext, ← Option.not_isNone, Bool.not_eq_false']

/-- What is read from a digit on is the zero character, or a character by octal digits. -/
theorem decodes_of_digit {c : Char} {cs consumed value rest : List Char} {digit : Nat}
    (hDigit : digitValue? 8 c = some digit) (hText : consumed ++ rest = c :: cs)
    (h : (if c = '0' ∧ (cs.head?.bind (digitValue? 8)).isNone then decoded [c] ['\x00'] cs
      else octal 2 [c] digit cs) = decoded consumed value rest) :
    Decodes rest.head? consumed value := by
  split at h
  · rename_i hZero
    injection h with hConsumed hValue hRest
    subst hConsumed hValue hRest
    obtain ⟨rfl, hNext⟩ := hZero
    exact .zero (octalNext_eq_false_iff.2 hNext)
  · rename_i hZero
    obtain ⟨digits, n, rfl, rfl, hRun⟩ := octalRun_of_octal h
    obtain rfl : digits ++ rest = cs := by simpa using hText
    refine .octal hDigit (fun hc => ?_) hRun
    by_contra hNone
    rw [Bool.not_eq_true, ← List.head?_append, octalNext_eq_false_iff] at hNone
    exact hZero ⟨hc, hNone⟩

/-- What is read as an escape is one. -/
theorem decodes_of_read {cs consumed value rest : List Char}
    (h : read false cs = decoded consumed value rest) : Decodes rest.head? consumed value := by
  have hText : (read false cs).text = cs := text_read false cs
  rw [h, text] at hText
  unfold read at h
  split at h
  · contradiction
  · injection h with hConsumed hValue hRest
    subst hConsumed hValue
    exact .lineBreakPair
  · exact decodes_of_twoDigits h
  · exact decodes_of_unicode h
  · rename_i c behind hPair hTwo hFour
    split at h
    · rename_i hBreak
      injection h with hConsumed hValue hRest
      subst hConsumed hValue hRest
      refine .lineBreak c hBreak fun hReturn hNext => ?_
      obtain ⟨rest', rfl⟩ := List.head?_eq_some_iff.1 hNext
      exact hPair rest' hReturn rfl
    · rename_i hNoBreak
      simp only [not_or] at hNoBreak
      split at h
      · rename_i digit hDigit
        rw [if_neg Bool.false_ne_true] at h
        exact decodes_of_digit hDigit hText h
      · rename_i hDigit
        injection h with hConsumed hValue hRest
        subst hConsumed hValue hRest
        exact .letter c ⟨hNoBreak.1, hNoBreak.2.1, hNoBreak.2.2.1, hNoBreak.2.2.2,
          fun hx => hTwo (by rw [hx]), fun hu => hFour (by rw [hu])⟩ hDigit

-- ---------------------------------------------------------------------------
-- What is found by the reader
-- ---------------------------------------------------------------------------

theorem octal_of_octalRun {next : Option Char} {limit value n : Nat}
    {opened digits rest : List Char} (h : OctalRun next limit value digits n)
    (hNext : rest.head? = next) :
    octal limit opened value (digits ++ rest) = decoded (opened ++ digits) [Char.ofNat n] rest := by
  induction h generalizing opened with
  | full value => simp [octal]
  | done limit value hStop =>
    rw [List.nil_append, List.append_nil]
    cases rest with
    | nil => simp [octal]
    | cons c cs =>
      cases limit with
      | zero => simp [octal]
      | succ limit =>
        rw [octal]
        have hHead : next.bind (digitValue? 8) = digitValue? 8 c := by rw [← hNext]; rfl
        rw [hHead] at hStop
        cases hDigit : digitValue? 8 c with
        | none => rfl
        | some digit =>
          have hLarge := hStop digit hDigit
          exact if_neg (by omega)
  | @digit limit value digit n c cs hDigit hSmall hRest ih =>
    rw [List.cons_append, octal, hDigit]
    simp only [if_pos hSmall, ih, List.append_assoc, List.singleton_append]

theorem unicode_of_digits {digits rest : List Char} (hDigits : digits.all isHexDigit = true)
    (hLength : digits.length = 4) : unicode (digits ++ rest) = fourDigits (digits ++ rest) := by
  cases digits with
  | nil => simp at hLength
  | cons c cs =>
    simp only [List.all_cons, Bool.and_eq_true] at hDigits
    have hc : c ≠ '{' := by
      rintro rfl
      exact absurd hDigits.1 (by decide)
    unfold unicode
    split
    · rename_i heq
      exact absurd (List.cons.inj heq).1 hc
    · rfl

theorem braced_of_digits {digits : List Char} (more rest : List Char)
    (hDigits : digits.all isHexDigit = true) (hMore : more.head?.any isHexDigit = false) :
    spanHex (digits ++ more ++ '}' :: rest).length (digits ++ more ++ '}' :: rest)
      = (digits, more ++ '}' :: rest) := by
  rw [List.append_assoc]
  cases more with
  | nil => exact spanHex_append_of_stop rest hDigits (by decide) (by simp)
  | cons c cs => exact spanHex_append_of_stop (cs ++ '}' :: rest) hDigits hMore (by simp)

/-- A surrogate in braces is read with what stands between its digits and the brace. -/
theorem braced_of_surrogate {digits more : List Char} (rest : List Char)
    (hDigits : digits.all isHexDigit = true) (hMore : more.head?.any isHexDigit = false)
    (hBrace : '}' ∉ more) (hLength : digits.length + more.length ≤ 6)
    (hBound : hexValue digits ≤ 0x10ffff) (hSurrogate : isSurrogate (hexValue digits) = true) :
    braced (digits ++ more ++ '}' :: rest)
      = decoded ('u' :: '{' :: (digits ++ more) ++ ['}'])
          ('\\' :: 'u' :: '{' :: (digits ++ more) ++ ['}']) rest := by
  have hSome : digits ≠ [] := by
    rintro rfl
    exact absurd hSurrogate (by decide)
  have hRange : ¬(digits = [] ∨ hexValue digits > 0x10ffff) :=
    not_or.2 ⟨hSome, Nat.not_lt.2 hBound⟩
  have hNoBrace : '}' ∉ digits ++ more := by
    rw [List.mem_append, not_or]
    exact ⟨not_mem_digits hDigits (by decide), hBrace⟩
  have hSpelled : spanToBrace 6 (digits ++ more ++ '}' :: rest) = (digits ++ more, '}' :: rest) :=
    spanToBrace_of_brace rest hNoBrace (by rw [List.length_append]; exact hLength)
  simp only [braced, braced_of_digits more rest hDigits hMore, if_neg hRange, hSurrogate, if_true,
    hSpelled, closeBrace]
  rfl

/-- How an escape is read that begins neither a line break of two characters nor a number in base
sixteen. -/
theorem read_cons {c : Char} {cs : List Char} (hPair : c = '\r' → cs.head? ≠ some '\n')
    (hTwo : c ≠ 'x') (hFour : c ≠ 'u') :
    read false (c :: cs) =
      if c = '\r' ∨ c = '\n' ∨ c = '\u2028' ∨ c = '\u2029' then decoded [c] [] cs
      else
        match digitValue? 8 c with
        | some digit =>
          if c = '0' ∧ (cs.head?.bind (digitValue? 8)).isNone then decoded [c] ['\x00'] cs
          else octal 2 [c] digit cs
        | none => decoded [c] [letterValue c] cs := by
  rw [read]
  · rfl
  · rintro rest rfl rfl
    exact hPair rfl rfl
  · exact hTwo
  · exact hFour

/-- How an escape is read that begins with a digit. -/
theorem read_digit {c : Char} {digit : Nat} (hDigit : digitValue? 8 c = some digit)
    (cs : List Char) :
    read false (c :: cs) =
      if c = '0' ∧ (cs.head?.bind (digitValue? 8)).isNone then decoded [c] ['\x00'] cs
      else octal 2 [c] digit cs := by
  have hPlain : ∀ d, digitValue? 8 d = none → c ≠ d := by
    rintro d hd rfl
    rw [hDigit] at hd
    contradiction
  have hNoBreak : ¬(c = '\r' ∨ c = '\n' ∨ c = '\u2028' ∨ c = '\u2029') := by
    rintro (h | h | h | h) <;> exact hPlain _ (by decide) h
  rw [read_cons (fun h => absurd h (hPlain _ (by decide))) (hPlain _ (by decide))
    (hPlain _ (by decide)), if_neg hNoBreak, hDigit]

/-- An escape is read as what it stands for. -/
theorem read_of_decodes {consumed value rest : List Char}
    (h : Decodes rest.head? consumed value) :
    read false (consumed ++ rest) = decoded consumed value rest := by
  cases h with
  | lineBreakPair => rfl
  | lineBreak c hBreak hPair =>
    have hTwo : c ≠ 'x' := by rintro rfl; simp at hBreak
    have hFour : c ≠ 'u' := by rintro rfl; simp at hBreak
    rw [List.singleton_append, read_cons hPair hTwo hFour, if_pos hBreak]
  -- digits without braces: as many are taken as are asked for, whatever follows
  | twoDigits digits hDigits hLength =>
    simp [read, twoDigits, spanHex_append_of_length rest hDigits hLength, hLength]
  | fourDigits digits hDigits hLength hSurrogate =>
    simp [read, unicode_of_digits hDigits hLength, fourDigits,
      spanHex_append_of_length rest hDigits hLength, hLength, hSurrogate]
  | surrogate digits hDigits hLength hSurrogate =>
    simp [read, unicode_of_digits hDigits hLength, fourDigits,
      spanHex_append_of_length rest hDigits hLength, hLength, hSurrogate]
  -- digits in braces: reading stops at the brace, which is then taken off
  | braced digits hDigits hSome hBound hSurrogate =>
    have hSpan := braced_of_digits [] rest hDigits rfl
    simp only [List.append_nil, List.nil_append] at hSpan
    have hRange : ¬(digits = [] ∨ hexValue digits > 0x10ffff) :=
      not_or.2 ⟨hSome, Nat.not_lt.2 hBound⟩
    simp only [List.cons_append, List.append_assoc, read, unicode, braced, hSpan, if_neg
      hRange, hSurrogate, Bool.false_eq_true, if_false, closeBrace, List.nil_append]
  | bracedSurrogate digits more hDigits hMore hBrace hLength hBound hSurrogate =>
    have hText : ('u' :: '{' :: (digits ++ more) ++ ['}']) ++ rest
        = 'u' :: '{' :: ((digits ++ more) ++ '}' :: rest) := by simp
    rw [hText, read, unicode]
    exact braced_of_surrogate rest hDigits hMore hBrace hLength hBound hSurrogate
  -- octal digits: a zero alone is told from a longer number by what follows it
  | zero hNext =>
    have hDigit : digitValue? 8 '0' = some 0 := by decide
    rw [List.singleton_append, read_digit hDigit]
    exact if_pos ⟨rfl, octalNext_eq_false_iff.1 hNext⟩
  | @octal c cs digit value hDigit hZero hRun =>
    have hNotZero : ¬(c = '0' ∧ ((cs ++ rest).head?.bind (digitValue? 8)).isNone) := by
      rintro ⟨hc, hNone⟩
      have hNext := hZero hc
      rw [← List.head?_append, octalNext_eq_false_iff.2 hNone] at hNext
      contradiction
    rw [List.cons_append, read_digit hDigit, if_neg hNotZero]
    exact octal_of_octalRun hRun rfl
  -- none of the letters with a form of their own: the character is looked up
  | letter c hPlain hDigit =>
    obtain ⟨hReturn, hFeed, hLine, hParagraph, hTwo, hFour⟩ := hPlain
    have hNoBreak : ¬(c = '\r' ∨ c = '\n' ∨ c = '\u2028' ∨ c = '\u2029') := by
      simp only [not_or]
      exact ⟨hReturn, hFeed, hLine, hParagraph⟩
    rw [List.singleton_append, read_cons (fun h => absurd h hReturn) hTwo hFour, if_neg hNoBreak,
      hDigit]

/-- The reader finds exactly the escapes of the list. -/
theorem read_eq_decoded_iff {cs consumed value rest : List Char} :
    read false cs = decoded consumed value rest ↔
      cs = consumed ++ rest ∧ Decodes rest.head? consumed value := by
  constructor
  · intro h
    refine ⟨?_, decodes_of_read h⟩
    have hText : (read false cs).text = cs := text_read false cs
    rw [h, text] at hText
    exact hText.symm
  · rintro ⟨rfl, hDecodes⟩
    exact read_of_decodes hDecodes

end Escape

namespace Decodes

variable {next next' : Option Char} {consumed value : List Char}

-- ---------------------------------------------------------------------------
-- The character behind an escape
-- ---------------------------------------------------------------------------

/-- A character that no escape in front of it could reach for. -/
def Inert (next : Option Char) : Prop := octalNext next = false ∧ next ≠ some '\n'

theorem octalRun_of_inert {limit n m : Nat} {digits : List Char} (hInert : octalNext next' = false)
    (h : OctalRun next limit n digits m) : OctalRun next' limit n digits m := by
  induction h with
  | full value => exact .full value
  | done limit value hStop =>
    refine .done limit value fun digit hDigit => ?_
    rw [octalNext, hDigit] at hInert
    contradiction
  | digit hDigit hSmall hRest ih => exact .digit hDigit hSmall ih

/-- An inert character behind an escape may be any other one. -/
theorem of_next (h : Decodes next consumed value)
    (hNext : next = next' ∨ Inert next ∧ Inert next') : Decodes next' consumed value := by
  rcases hNext with rfl | ⟨hInert, hInert'⟩
  · exact h
  cases h with
  | lineBreakPair => exact .lineBreakPair
  | lineBreak c hBreak hPair => exact .lineBreak c hBreak fun _ => hInert'.2
  | twoDigits digits hDigits hLength => exact .twoDigits digits hDigits hLength
  | fourDigits digits hDigits hLength hSurrogate =>
    exact .fourDigits digits hDigits hLength hSurrogate
  | surrogate digits hDigits hLength hSurrogate =>
    exact .surrogate digits hDigits hLength hSurrogate
  | braced digits hDigits hSome hBound hSurrogate =>
    exact .braced digits hDigits hSome hBound hSurrogate
  | bracedSurrogate digits more hDigits hMore hBrace hLength hBound hSurrogate =>
    exact .bracedSurrogate digits more hDigits hMore hBrace hLength hBound hSurrogate
  | zero => exact .zero hInert'.1
  | @octal c cs digit value hDigit hZero hRun =>
    refine .octal hDigit (fun hc => ?_) (octalRun_of_inert hInert'.1 hRun)
    have hSome := hZero hc
    cases cs with
    | nil =>
      rw [List.head?_nil, Option.none_or, hInert.1] at hSome
      contradiction
    | cons d ds => exact hSome
  | letter c hPlain hDigit => exact .letter c hPlain hDigit

theorem not_mem_octalRun {limit n m : Nat} {digits : List Char} {c : Char}
    (h : OctalRun next limit n digits m) (hDigit : digitValue? 8 c = none) : c ∉ digits := by
  induction h with
  | full => exact List.not_mem_nil
  | done => exact List.not_mem_nil
  | digit hd _ _ ih =>
    rw [List.mem_cons, not_or]
    refine ⟨?_, ih⟩
    rintro rfl
    rw [hDigit] at hd
    contradiction

theorem digitValue_lt (c : Char) : (digitValue? 16 c).getD 0 < 16 := by
  unfold digitValue?
  generalize (if '0' ≤ c ∧ c ≤ '9' then _ else _ : Option Nat) = value?
  cases value? with
  | none => decide
  | some value =>
    by_cases hSmall : value < 16
    · simp [Option.filter, hSmall]
    · simp [Option.filter, hSmall]

/-- Few digits spell a small number. -/
theorem hexValue_lt (digits : List Char) : hexValue digits < 16 ^ digits.length := by
  suffices hRun : ∀ n, digits.foldl (fun n c => n * 16 + (digitValue? 16 c).getD 0) n
      < (n + 1) * 16 ^ digits.length by
    simpa [hexValue] using hRun 0
  induction digits with
  | nil => intro n; simp
  | cons c cs ih =>
    intro n
    have hDigit := digitValue_lt c
    calc (c :: cs).foldl (fun n c => n * 16 + (digitValue? 16 c).getD 0) n
        = cs.foldl (fun n c => n * 16 + (digitValue? 16 c).getD 0)
            (n * 16 + (digitValue? 16 c).getD 0) := rfl
      _ < (n * 16 + (digitValue? 16 c).getD 0 + 1) * 16 ^ cs.length := ih _
      _ ≤ ((n + 1) * 16) * 16 ^ cs.length := Nat.mul_le_mul_right _ (by omega)
      _ = (n + 1) * 16 ^ (c :: cs).length := by
        rw [List.length_cons, Nat.pow_succ, Nat.mul_assoc, Nat.mul_comm 16]

/-- The digits of a surrogate are four at least. -/
theorem length_of_surrogate {digits : List Char} (h : isSurrogate (hexValue digits) = true) :
    4 ≤ digits.length := by
  have hLarge : 0xd800 ≤ hexValue digits := by
    simp only [isSurrogate, Bool.and_eq_true, decide_eq_true_eq] at h
    exact h.1
  have hLt := hexValue_lt digits
  by_contra hShort
  have hPow : 16 ^ digits.length ≤ 16 ^ 3 := Nat.pow_le_pow_right (by decide) (by omega)
  omega

/-- In the spelling of a surrogate in braces a line feed stands behind the digits, of which there
are four at least, so one character at most is left between it and the brace. -/
theorem behind_lineFeed_of_surrogate {digits more front behind : List Char}
    (hText : front ++ '\n' :: behind = 'u' :: '{' :: (digits ++ more) ++ ['}'])
    (hDigits : digits.all isHexDigit = true) (hLength : digits.length + more.length ≤ 6)
    (hSurrogate : isSurrogate (hexValue digits) = true) :
    ∃ between, behind = between ++ ['}'] ∧ between.length ≤ 1 := by
  have hFour := length_of_surrogate hSurrogate
  have hNot : '\n' ∉ 'u' :: '{' :: digits := by
    simp [not_mem_digits (c := '\n') hDigits (by decide)]
  have hParts : ('u' :: '{' :: digits) ++ (more ++ ['}']) = front ++ '\n' :: behind := by
    rw [hText]
    simp
  obtain ⟨passed, -, hMore⟩ := eq_append_of_notMem hParts hNot
  rcases List.eq_nil_or_concat behind with rfl | ⟨between, last, rfl⟩
  · have hLast := (List.append_inj' hMore rfl).2
    exact absurd (List.cons.inj hLast).1 (by decide)
  · have hMore : more ++ ['}'] = (passed ++ '\n' :: between) ++ [last] := by simpa using hMore
    obtain ⟨rfl, hLast⟩ := List.append_inj' hMore rfl
    refine ⟨between, by rw [hLast, List.concat_eq_append], ?_⟩
    simp only [List.length_append, List.length_cons] at hLength
    omega

/-- An escape that holds a line feed ends with it, or keeps its spelling and closes a brace soon
after. -/
theorem of_lineFeed {front behind : List Char}
    (h : Decodes next (front ++ '\n' :: behind) value) :
    (behind = [] ∧ ∀ next', Decodes next' (front ++ ['\n']) value) ∨
      ∃ more, behind = more ++ ['}'] ∧ more.length ≤ 1 := by
  generalize hText : front ++ '\n' :: behind = consumed at h
  have hMem : '\n' ∈ consumed := by rw [← hText]; simp
  have hNot : ∀ {digits : List Char}, digits.all isHexDigit = true → '\n' ∉ digits :=
    fun hDigits => not_mem_digits hDigits (by decide)
  cases h with
  | lineBreakPair =>
    left
    obtain ⟨passed, rfl, hFeed⟩ := eq_append_of_notMem (a := ['\r']) hText.symm (by decide)
    obtain ⟨rfl, rfl⟩ : passed = [] ∧ behind = [] := by
      simpa [List.append_eq_singleton_iff] using hFeed.symm
    exact ⟨rfl, fun _ => .lineBreakPair⟩
  | lineBreak c hBreak hPair =>
    left
    obtain ⟨rfl, rfl, rfl⟩ : front = [] ∧ '\n' = c ∧ behind = [] := by
      simpa [List.append_eq_singleton_iff] using hText
    exact ⟨rfl, fun _ => .lineBreak '\n' hBreak fun h => absurd h (by decide)⟩
  | twoDigits digits hDigits => simp [hNot hDigits] at hMem
  | fourDigits digits hDigits => simp [hNot hDigits] at hMem
  | surrogate digits hDigits => simp [hNot hDigits] at hMem
  | braced digits hDigits => simp [hNot hDigits] at hMem
  | bracedSurrogate digits more hDigits _ _ hLength _ hSurrogate =>
    exact .inr (behind_lineFeed_of_surrogate hText hDigits hLength hSurrogate)
  | zero => simp at hMem
  | octal hDigit hZero hRun =>
    rcases List.mem_cons.1 hMem with rfl | h
    · have hNone : digitValue? 8 '\n' = none := by decide
      rw [hNone] at hDigit
      contradiction
    · exact absurd h (not_mem_octalRun hRun (by decide))
  | letter c hPlain hDigit =>
    rw [List.mem_singleton] at hMem
    exact absurd hMem.symm hPlain.2.1

theorem digitValue_eq_none {c : Char} (h : isHexDigit c = false) : digitValue? 8 c = none := by
  simp only [isHexDigit, digitValue?, Option.isSome_eq_false_iff, Option.isNone_iff_eq_none,
    Option.filter_eq_none_iff, decide_eq_true_eq] at h ⊢
  intro value hValue
  have := h value hValue
  omega

/-- An escape with a character in it that is no digit, no brace and no line break is that character
alone, or it keeps its spelling. -/
theorem of_plain {front behind : List Char} {c : Char}
    (h : Decodes next (front ++ c :: behind) value) (hDigit : isHexDigit c = false)
    (hPlain : c ∉ ['\r', '\n', '\u2028', '\u2029', 'x', 'u', '{', '}'])
    (hLetter : Escape.letterValue c = c) :
    (front = [] ∧ behind = [] ∧ value = [c]) ∨ value = '\\' :: (front ++ c :: behind) := by
  generalize hText : front ++ c :: behind = consumed at h
  have hMem : c ∈ consumed := by rw [← hText]; simp
  simp only [List.mem_cons, List.not_mem_nil, or_false, not_or] at hPlain
  obtain ⟨hReturn, hFeed, hLine, hParagraph, hTwo, hFour, hOpen, hClose⟩ := hPlain
  have hNot : ∀ {digits : List Char}, digits.all isHexDigit = true → c ∉ digits :=
    fun hDigits => not_mem_digits hDigits hDigit
  -- in most escapes all characters are digits or ones that are ruled out
  cases h with
  | lineBreakPair => simp [hReturn, hFeed] at hMem
  | lineBreak d hBreak hPair =>
    rw [List.mem_singleton] at hMem
    subst hMem
    simp [hReturn, hFeed, hLine, hParagraph] at hBreak
  | twoDigits digits hDigits => simp [hTwo, hNot hDigits] at hMem
  | fourDigits digits hDigits => simp [hFour, hNot hDigits] at hMem
  | surrogate digits hDigits => simp [hFour, hNot hDigits] at hMem
  | braced digits hDigits => simp [hFour, hOpen, hClose, hNot hDigits] at hMem
  | bracedSurrogate => exact .inr rfl
  | zero =>
    rw [List.mem_singleton] at hMem
    subst hMem
    exact absurd hDigit (by decide)
  | octal hOctal hZero hRun =>
    have hNone := digitValue_eq_none hDigit
    rcases List.mem_cons.1 hMem with rfl | hMem
    · rw [hNone] at hOctal
      contradiction
    · exact absurd hMem (not_mem_octalRun hRun hNone)
  | letter d =>
    left
    rw [List.mem_singleton] at hMem
    subst hMem
    cases front with
    | nil => exact ⟨rfl, (List.cons.inj hText).2, by rw [hLetter]⟩
    | cons => simp at hText

-- ---------------------------------------------------------------------------
-- Lengths
-- ---------------------------------------------------------------------------

theorem octalRun_lt {limit n m : Nat} {digits : List Char} (h : OctalRun next limit n digits m)
    (hSmall : n < 256) : m < 256 := by
  induction h with
  | full => exact hSmall
  | done => exact hSmall
  | digit _ hNext _ ih => exact ih hNext

theorem utf8Size_ofNat_le {n : Nat} (h : n < 256) : (Char.ofNat n).utf8Size ≤ 2 := by
  have hAll : ∀ n : Fin 256, (Char.ofNat n).utf8Size ≤ 2 := by decide +kernel
  exact hAll ⟨n, h⟩

theorem utf8Size_ofNat_eq_one {n : Nat} (h : n < 8) : (Char.ofNat n).utf8Size = 1 := by
  have hAll : ∀ n : Fin 8, (Char.ofNat n).utf8Size = 1 := by decide
  exact hAll ⟨n, h⟩

theorem octalDigit_lt {c : Char} {digit : Nat} (h : digitValue? 8 c = some digit) : digit < 8 := by
  simp only [digitValue?, Option.filter_eq_some_iff, decide_eq_true_eq] at h
  exact h.2

theorem utf8Size_letterValue_le (c : Char) : (Escape.letterValue c).utf8Size ≤ c.utf8Size := by
  unfold Escape.letterValue
  split
  all_goals first | decide | exact Nat.le_refl _

/-- An escape is longer than what it stands for, unless it keeps its spelling. -/
theorem length_le (h : Decodes next consumed value) :
    value = '\\' :: consumed ∨ byteLength value ≤ byteLength consumed := by
  have hFour : ∀ n, byteLength [Char.ofNat n] ≤ 4 := fun n => by
    simpa using Char.utf8Size_le_four (Char.ofNat n)
  have hBytes := length_le_byteLength consumed
  cases h with
  | surrogate => exact .inl rfl
  | bracedSurrogate => exact .inl rfl
  | lineBreakPair => exact .inr (by decide)
  | lineBreak => exact .inr (by simp)
  -- a value below 256 takes two bytes at most
  | twoDigits digits hDigits hLength =>
    right
    have hValue : hexValue digits < 256 := by
      have := hexValue_lt digits
      rwa [hLength] at this
    have := utf8Size_ofNat_le hValue
    simp only [byteLength_cons, byteLength_nil, List.length_cons] at hBytes ⊢
    omega
  -- a letter and four digits, or a digit in braces, are four bytes or more, and no character is
  | fourDigits digits hDigits hLength =>
    right
    have := hFour (hexValue digits)
    simp only [List.length_cons] at hBytes
    omega
  | braced digits hDigits hSome =>
    right
    have := hFour (hexValue digits)
    have := List.length_pos_iff.2 hSome
    simp only [List.length_cons, List.length_append, List.length_nil] at hBytes
    omega
  | zero => exact .inr (by decide)
  -- one octal digit gives a character of one byte, more of them a value below 256
  | @octal c cs digit n hDigit hZero hRun =>
    right
    cases hRun with
    | done =>
      have := utf8Size_ofNat_eq_one (octalDigit_lt hDigit)
      simp only [byteLength_cons, byteLength_nil, List.length_cons] at hBytes ⊢
      omega
    | digit _ hSmall hRest =>
      have := utf8Size_ofNat_le (octalRun_lt hRest hSmall)
      simp only [byteLength_cons, byteLength_nil, List.length_cons] at hBytes ⊢
      omega
  | letter c => exact .inr (by simpa using utf8Size_letterValue_le c)

end Decodes

end Relocation.TypeScript

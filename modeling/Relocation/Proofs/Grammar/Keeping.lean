import Relocation.Proofs.Scanner.Lexemes
import Relocation.TypeScript.Grammar.Reading

/-!
# What is still ahead of the grammar

`Ahead text lo s` says of a state on its way through a text that whatever is still to be read lies
from `lo` on: the scanner stands at a cut of the text there, and the lexemes in hand that are told
from the text again stand in it, one behind the other. A reader that never goes back keeps this for
every `lo`, whether it ends with a value or with a fault.

`Keeps` is that statement about a reader, as a class: what is put together from readers that keep
what is ahead keeps it too, so for most readers of the grammar the instance follows from those of
their parts.

## Results

* `Keeps` for the primitives and for the ways to put readers together;
* `Ahead.advance`: going on to the next lexeme.
-/

namespace Relocation.TypeScript.Grammar

open Text

variable {text : List Char} {lo : Nat} {α β : Type}

-- ---------------------------------------------------------------------------
-- What is ahead
-- ---------------------------------------------------------------------------

/-- A lexeme in hand that is told from the text again lies from `lo` on and ends before `behind`. -/
structure Awaits (text : List Char) (lo behind : Nat) (lexeme : Lexeme) : Prop where
  stands : Stands text lexeme
  start : lexeme.token.isFree = false → lo ≤ lexeme.start
  stop : lexeme.token.isFree = false → lexeme.stop ≤ behind

/-- What is still to be read lies from `lo` on. -/
structure Ahead (text : List Char) (lo : Nat) (s : State) : Prop where
  text_eq : s.text = text
  atCut : s.scanner.AtCut text
  offset : lo ≤ s.scanner.offset
  current : ∀ lexeme ∈ s.current, Awaits text lo s.scanner.offset lexeme
  following : ∀ lexeme ∈ s.following, Awaits text lo s.scanner.offset lexeme
  ordered : ∀ lexeme ∈ s.current, ∀ next ∈ s.following, lexeme.token.isFree = false →
    next.token.isFree = false → lexeme.stop ≤ next.start

theorem ahead_start (dialect : Dialect) (text : List Char) :
    Ahead text 0 (State.start dialect text) where
  text_eq := rfl
  atCut := Scanner.atCut_start dialect text
  offset := Nat.zero_le _
  current := by simp [State.start]
  following := by simp [State.start]
  ordered := by simp [State.start]

theorem Awaits.mono {lo' behind behind' : Nat} {lexeme : Lexeme}
    (h : Awaits text lo behind lexeme) (hLo : lo' ≤ lo) (hBehind : behind ≤ behind') :
    Awaits text lo' behind' lexeme :=
  ⟨h.stands, fun hFree => Nat.le_trans hLo (h.start hFree),
    fun hFree => Nat.le_trans (h.stop hFree) hBehind⟩

theorem awaits_of_isFree {behind : Nat} {lexeme : Lexeme} (h : lexeme.token.isFree = true) :
    Awaits text lo behind lexeme := by
  refine ⟨stands_of_isFree h, fun hFree => ?_, fun hFree => ?_⟩ <;>
    · rw [h] at hFree
      contradiction

/-- What lies from a point on lies from any earlier point on. -/
theorem Ahead.mono {lo' : Nat} {s : State} (h : Ahead text lo s) (hLo : lo' ≤ lo) :
    Ahead text lo' s :=
  ⟨h.text_eq, h.atCut, Nat.le_trans hLo h.offset,
    fun lexeme hl => (h.current lexeme hl).mono hLo (Nat.le_refl _),
    fun lexeme hl => (h.following lexeme hl).mono hLo (Nat.le_refl _), h.ordered⟩

-- ---------------------------------------------------------------------------
-- Readers that keep it
-- ---------------------------------------------------------------------------

/-- The state in which a reader ends, with a value or with a fault. -/
def endState : EStateM.Result Nat State α → State
  | .ok _ s => s
  | .error _ s => s

@[simp] theorem endState_ok (a : α) (s : State) :
    endState (.ok a s : EStateM.Result Nat State α) = s := rfl

@[simp] theorem endState_error (e : Nat) (s : State) :
    endState (.error e s : EStateM.Result Nat State α) = s := rfl

/-- The reader keeps what is ahead. -/
class Keeps (text : List Char) (lo : Nat) (reader : Parse α) : Prop where
  keeps : ∀ s, Ahead text lo s → Ahead text lo (endState (reader s))

theorem Keeps.ok {reader : Parse α} [h : Keeps text lo reader] {s s' : State} {a : α}
    (hAhead : Ahead text lo s) (hRun : reader s = .ok a s') : Ahead text lo s' := by
  have hEnd := h.keeps s hAhead
  rwa [hRun] at hEnd

theorem Keeps.error {reader : Parse α} [h : Keeps text lo reader] {s s' : State} {e : Nat}
    (hAhead : Ahead text lo s) (hRun : reader s = .error e s') : Ahead text lo s' := by
  have hEnd := h.keeps s hAhead
  rwa [hRun] at hEnd

instance keeps_pure (a : α) : Keeps text lo (pure a : Parse α) := ⟨fun _ h => h⟩

instance keeps_throw (e : Nat) : Keeps text lo (throw e : Parse α) := ⟨fun _ h => h⟩

instance keeps_get : Keeps text lo (get : Parse State) := ⟨fun _ h => h⟩

/-- One reader after another. The second one may depend on what the first one gives. -/
theorem Keeps.bind {reader : Parse α} {next : α → Parse β} (h : Keeps text lo reader)
    (hNext : ∀ a, Keeps text lo (next a)) : Keeps text lo (reader >>= next) := by
  refine ⟨fun s hAhead => ?_⟩
  show Ahead text lo (endState (EStateM.bind reader next s))
  unfold EStateM.bind
  split
  · rename_i a s' hRun
    exact (hNext a).keeps s' (h.ok hAhead hRun)
  · rename_i e s' hRun
    exact h.error hAhead hRun

instance keeps_bind {reader : Parse α} {next : α → Parse β} [h : Keeps text lo reader]
    [hNext : ∀ a, Keeps text lo (next a)] : Keeps text lo (reader >>= next) :=
  h.bind hNext

instance keeps_ite {c : Prop} [Decidable c] {a b : Parse α} [Keeps text lo a]
    [Keeps text lo b] : Keeps text lo (if c then a else b) := by
  split <;> assumption

/-- What a reader does before it gives its value changes nothing about keeping. -/
instance keeps_map {reader : Parse α} (f : α → β) [h : Keeps text lo reader] :
    Keeps text lo (f <$> reader) :=
  inferInstanceAs (Keeps text lo (reader >>= fun a => pure (f a)))

instance keeps_andM {a b : Parse Bool} [Keeps text lo a] [Keeps text lo b] :
    Keeps text lo (a <&&> b) :=
  .bind inferInstance fun
    | true => inferInstanceAs (Keeps text lo b)
    | false => inferInstanceAs (Keeps text lo (pure false))

instance keeps_orM {a b : Parse Bool} [Keeps text lo a] [Keeps text lo b] :
    Keeps text lo (a <||> b) :=
  .bind inferInstance fun
    | true => inferInstanceAs (Keeps text lo (pure true))
    | false => inferInstanceAs (Keeps text lo b)

instance keeps_notM {a : Parse Bool} [Keeps text lo a] : Keeps text lo (notM a) :=
  keeps_map _

instance keeps_unless {c : Prop} [Decidable c] {reader : Parse PUnit} [Keeps text lo reader] :
    Keeps text lo (unless c do reader) := by
  split <;> infer_instance

/-- A change of the state that leaves alone what is ahead. -/
theorem keeps_modify {f : State → State} (h : ∀ s, Ahead text lo s → Ahead text lo (f s)) :
    Keeps text lo (modify f : Parse PUnit) := ⟨h⟩

instance keeps_setArrowStart (start? : State → Option Nat) :
    Keeps text lo (modify fun s => { s with arrowStart := start? s } : Parse PUnit) :=
  keeps_modify fun _ h => ⟨h.text_eq, h.atCut, h.offset, h.current, h.following, h.ordered⟩

-- ---------------------------------------------------------------------------
-- Looking at lexemes
-- ---------------------------------------------------------------------------

theorem get_eq_ok (s : State) : (get : Parse State) s = .ok s s := rfl

theorem current?_of_some {s : State} {lexeme : Lexeme} (h : s.current = some lexeme) :
    current? s = .ok (some lexeme) s := by
  simp only [current?, bind, EStateM.bind, get_eq_ok, h]
  rfl

theorem current?_of_following {s : State} {lexeme : Lexeme} (h : s.current = none)
    (h' : s.following = some lexeme) :
    current? s = .ok (some lexeme) { s with current := some lexeme, following := none } := by
  simp only [current?, bind, EStateM.bind, get_eq_ok, h, h']
  rfl

theorem current?_of_none {s : State} (h : s.current = none) (h' : s.following = none) :
    current? s = .ok (s.scanner.next s.modes.manner).1
      { s with
        scanner := (s.scanner.next s.modes.manner).2
        current := (s.scanner.next s.modes.manner).1 } := by
  simp only [current?, bind, EStateM.bind, get_eq_ok, h, h']
  rfl

/-- The lexeme that is looked at is in hand from then on. -/
theorem current?_spec (s : State) :
    ∃ lexeme? s', current? s = .ok lexeme? s' ∧ s'.current = lexeme? := by
  cases hCurrent : s.current with
  | some lexeme => exact ⟨_, _, current?_of_some hCurrent, hCurrent⟩
  | none =>
    cases hFollowing : s.following with
    | some lexeme => exact ⟨_, _, current?_of_following hCurrent hFollowing, rfl⟩
    | none => exact ⟨_, _, current?_of_none hCurrent hFollowing, rfl⟩

instance keeps_current? : Keeps text lo current? := by
  refine ⟨fun s h => ?_⟩
  cases hCurrent : s.current with
  | some lexeme =>
    rw [current?_of_some hCurrent]
    exact h
  | none =>
    cases hFollowing : s.following with
    | some lexeme =>
      rw [current?_of_following hCurrent hFollowing, endState_ok]
      refine ⟨h.text_eq, h.atCut, h.offset, ?_, by simp, by simp⟩
      rintro _ ⟨⟩
      exact h.following lexeme hFollowing
    | none =>
      rw [current?_of_none hCurrent hFollowing, endState_ok]
      obtain ⟨hCut, hOffset, hLexeme⟩ := Scanner.next_spec s.modes.manner h.atCut
      refine ⟨h.text_eq, hCut, Nat.le_trans h.offset hOffset, fun lexeme hl => ?_, ?_, ?_⟩
      · obtain ⟨hStands, hStart, hStop⟩ := hLexeme lexeme hl
        exact ⟨hStands, fun _ => Nat.le_trans h.offset hStart, fun _ => hStop⟩
      · simp [hFollowing]
      · simp [hFollowing]

instance keeps_token? : Keeps text lo token? := by
  unfold token?
  infer_instance

theorem following?_of_end {s s' : State} (hRun : current? s = .ok none s') :
    following? s = .ok none s' := by
  simp only [following?, bind, EStateM.bind, hRun]
  rfl

theorem following?_of_some {s s' : State} {lexeme next : Lexeme}
    (hRun : current? s = .ok (some lexeme) s') (h : s'.following = some next) :
    following? s = .ok (some next) s' := by
  simp only [following?, bind, EStateM.bind, hRun, get_eq_ok, h]
  rfl

theorem following?_of_none {s s' : State} {lexeme : Lexeme}
    (hRun : current? s = .ok (some lexeme) s') (h : s'.following = none) :
    following? s = .ok (s'.scanner.next s'.modes.manner).1
      { s' with
        scanner := (s'.scanner.next s'.modes.manner).2
        following := (s'.scanner.next s'.modes.manner).1 } := by
  simp only [following?, bind, EStateM.bind, hRun, get_eq_ok, h]
  rfl

instance keeps_following? : Keeps text lo following? := by
  refine ⟨fun s h => ?_⟩
  obtain ⟨lexeme?, s', hRun, -⟩ := current?_spec s
  have h' : Ahead text lo s' := Keeps.ok h hRun
  cases lexeme? with
  | none =>
    rw [following?_of_end hRun]
    exact h'
  | some lexeme =>
    cases hFollowing : s'.following with
    | some next =>
      rw [following?_of_some hRun hFollowing]
      exact h'
    | none =>
      rw [following?_of_none hRun hFollowing, endState_ok]
      obtain ⟨hCut, hOffset, hNext⟩ := Scanner.next_spec s'.modes.manner h'.atCut
      refine ⟨h'.text_eq, hCut, Nat.le_trans h'.offset hOffset, fun lexeme hl => ?_,
        fun next hn => ?_, fun lexeme hl next hn hFree _ => ?_⟩
      · exact (h'.current lexeme hl).mono (Nat.le_refl _) hOffset
      · obtain ⟨hStands, hStart, hStop⟩ := hNext next hn
        exact ⟨hStands, fun _ => Nat.le_trans h'.offset hStart, fun _ => hStop⟩
      · exact Nat.le_trans ((h'.current lexeme hl).stop hFree) (hNext next hn).2.1

instance keeps_tokenAhead? : Keeps text lo tokenAhead? := by
  unfold tokenAhead?
  infer_instance

instance keeps_atEnd : Keeps text lo atEnd := by
  unfold atEnd
  infer_instance

instance keeps_position : Keeps text lo position := by
  unfold position
  refine .bind inferInstance fun lexeme? => ?_
  cases lexeme? <;> dsimp only <;> infer_instance

instance keeps_afterLineBreak : Keeps text lo afterLineBreak := by
  unfold afterLineBreak
  infer_instance

instance keeps_beforeLineBreak : Keeps text lo beforeLineBreak := by
  unfold beforeLineBreak
  infer_instance

-- ---------------------------------------------------------------------------
-- Faults
-- ---------------------------------------------------------------------------

/-- Behind the lexeme in hand everything lies from its end on. -/
theorem Ahead.advance {s : State} {lexeme : Lexeme} (h : Ahead text lo s) :
    Ahead text lo
      { s with current := none, previousStart := lexeme.start, previousStop := lexeme.stop } :=
  ⟨h.text_eq, h.atCut, h.offset, by simp, h.following, by simp⟩

instance keeps_advance : Keeps text lo advance := by
  unfold Grammar.advance
  refine .bind inferInstance fun lexeme? => ?_
  cases lexeme? with
  | none => infer_instance
  | some lexeme => exact keeps_modify fun s h => h.advance

instance keeps_faultAt (offset : Nat) : Keeps text lo (faultAt offset : Parse α) := by
  unfold faultAt
  refine .bind inferInstance fun token? => ?_
  dsimp only
  split <;> infer_instance

instance keeps_fault : Keeps text lo (fault : Parse α) := by
  unfold fault
  refine .bind inferInstance fun lexeme? => ?_
  cases lexeme? <;> dsimp only <;> infer_instance

instance keeps_faultBehind : Keeps text lo (faultBehind : Parse α) := by
  unfold faultBehind
  infer_instance

instance keeps_requireToken : Keeps text lo requireToken := by
  unfold requireToken
  refine .bind inferInstance fun token? => ?_
  split <;> infer_instance

-- ---------------------------------------------------------------------------
-- Accepting lexemes
-- ---------------------------------------------------------------------------

instance keeps_sees (token : Token) : Keeps text lo (sees token) := by
  unfold sees
  infer_instance

instance keeps_seesSym (symbol : String) : Keeps text lo (seesSym symbol) := keeps_sees _

instance keeps_seesWord (word : String) : Keeps text lo (seesWord word) := keeps_sees _

instance keeps_seesAnySym (symbols : List String) : Keeps text lo (seesAnySym symbols) := by
  unfold seesAnySym
  refine .bind inferInstance fun token? => ?_
  split <;> infer_instance

instance keeps_seesAnyWord (words : List String) : Keeps text lo (seesAnyWord words) := by
  unfold seesAnyWord
  refine .bind inferInstance fun token? => ?_
  split <;> infer_instance

instance keeps_seesSomeWord : Keeps text lo seesSomeWord := by
  unfold seesSomeWord
  infer_instance

instance keeps_seesReference : Keeps text lo seesReference := by
  unfold seesReference
  infer_instance

instance keeps_seesAhead (token : Token) : Keeps text lo (seesAhead token) := by
  unfold seesAhead
  infer_instance

instance keeps_seesSymAhead (symbol : String) : Keeps text lo (seesSymAhead symbol) :=
  keeps_seesAhead _

instance keeps_seesWordAhead (word : String) : Keeps text lo (seesWordAhead word) :=
  keeps_seesAhead _

instance keeps_seesSomeWordAhead : Keeps text lo seesSomeWordAhead := by
  unfold seesSomeWordAhead
  infer_instance

instance keeps_seesReferenceAhead : Keeps text lo seesReferenceAhead := by
  unfold seesReferenceAhead
  infer_instance

instance keeps_eat (token : Token) : Keeps text lo (eat token) := by
  unfold eat
  infer_instance

instance keeps_eatSym (symbol : String) : Keeps text lo (eatSym symbol) := keeps_eat _

instance keeps_eatWord (word : String) : Keeps text lo (eatWord word) := keeps_eat _

instance keeps_expect (token : Token) : Keeps text lo (expect token) := by
  unfold expect
  infer_instance

instance keeps_expectSym (symbol : String) : Keeps text lo (expectSym symbol) := keeps_expect _

instance keeps_expectWord (word : String) : Keeps text lo (expectWord word) := keeps_expect _

instance keeps_seesStatementEnd : Keeps text lo seesStatementEnd := by
  unfold seesStatementEnd
  refine .bind inferInstance fun lexeme? => ?_
  cases lexeme? <;> dsimp only <;> infer_instance

instance keeps_eatStatementEnd : Keeps text lo eatStatementEnd := by
  unfold eatStatementEnd
  infer_instance

instance keeps_expectStatementEnd : Keeps text lo expectStatementEnd := by
  unfold expectStatementEnd
  infer_instance

end Relocation.TypeScript.Grammar

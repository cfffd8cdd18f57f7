import Relocation.Proofs.Grammar.Statements

/-!
# Where the literals in the values of readers stand

Most of what the grammar reads it forgets, but some values hold string literals of the text: a
literal by itself, an expression that is one, the arguments of a call, an item of a module. Each of
these literals is a string token that was in hand on the way. So it stands in the text, not before
what was ahead when the reading began, and it ends before what is ahead when the reading ends.

`Places text lo hi reader` says that for a reading that begins with everything ahead from `lo` on
and ends with something ahead that reaches back to `hi`. With both ends held fixed a value keeps
its place whatever is read after it, and a reader may use the values of the readers before it.

## Results

* `Places` for the primitives and for the ways to put readers together;
* `ahead_behind_literal`: a literal ends before what is ahead when the reading ends;
* `collectWithin_ordered`: the literals of one repetition after another follow one another.
-/

namespace Relocation.TypeScript

/-- The literal stands in the text, between the two offsets. -/
structure Literal.Within (text : List Char) (lo hi : Nat) (literal : Literal) : Prop where
  stands : StringAt text literal.start literal.stop literal.value
  start : lo ≤ literal.start
  stop : literal.stop ≤ hi

namespace Grammar

open Text

variable {text : List Char} {lo hi : Nat} {α β : Type}

-- ---------------------------------------------------------------------------
-- The literals of a value
-- ---------------------------------------------------------------------------

/-- Values that may hold literals of the text. -/
class Bears (α : Type) where
  literals : α → List Literal

export Bears (literals)

/-- Of most things that are read nothing is remembered. -/
instance (priority := low) bears_nothing : Bears α := ⟨fun _ => []⟩

/-- The literal of an expression that is one, or a plain call with one. -/
def Shape.literals : Shape → List Literal
  | .string literal => [literal]
  | .requireCall path => [path]
  | _ => []

instance : Bears Literal := ⟨fun literal => [literal]⟩

instance : Bears Expression := ⟨fun e => e.shape.literals⟩

instance : Bears Element := ⟨fun element => literals element.value⟩

instance : Bears Callee where
  literals
    | .expression e => literals e
    | _ => []

instance : Bears Item where
  literals
    | .bareImport path | .bindingImport path | .aliasImport path | .requireCall _ path => [path]
    | .other => []

instance [Bears α] : Bears (Option α) := ⟨fun a? => a?.toList.flatMap literals⟩

instance [Bears α] : Bears (List α) := ⟨fun list => list.flatMap literals⟩

instance [Bears α] : Bears (α × β) := ⟨fun pair => literals pair.1⟩

-- ---------------------------------------------------------------------------
-- Values in place
-- ---------------------------------------------------------------------------

/-- The literals of the value stand between the two offsets. -/
class Placed (text : List Char) (lo hi : Nat) [Bears α] (a : α) : Prop where
  within : ∀ literal ∈ literals a, literal.Within text lo hi

theorem placed_of_bare [Bears α] {a : α} (h : literals a = []) : Placed text lo hi a :=
  ⟨by simp [h]⟩

/-- Kinds of values that hold no literals. -/
class Mute (α : Type) [Bears α] : Prop where
  mute : ∀ a : α, literals a = []

instance mute_nothing : @Mute α bears_nothing := @Mute.mk α bears_nothing fun _ => rfl

instance mute_option [Bears α] [h : Mute α] : Mute (Option α) where
  mute
    | none => rfl
    | some a => by simp [literals, h.mute]

instance mute_list [Bears α] [h : Mute α] : Mute (List α) := ⟨fun list => by
  simp [literals, h.mute]⟩

instance mute_pair [Bears α] [h : Mute α] : Mute (α × β) := ⟨fun pair => h.mute pair.1⟩

instance placed_mute [Bears α] [h : Mute α] (a : α) : Placed text lo hi a :=
  placed_of_bare (h.mute a)

/-- What an expression remembers of a literal is in its shape. -/
class Shape.Bare (shape : Shape) : Prop where
  bare : shape.literals = []

instance (name : String) : (Shape.name name).Bare := ⟨rfl⟩
instance : Shape.arrow.Bare := ⟨rfl⟩
instance : Shape.operation.Bare := ⟨rfl⟩
instance : Shape.place.Bare := ⟨rfl⟩
instance : Shape.chain.Bare := ⟨rfl⟩
instance : Shape.bareConstruction.Bare := ⟨rfl⟩
instance (a b : Option Nat) : (Shape.structured a b).Bare := ⟨rfl⟩
instance : Shape.assignment.Bare := ⟨rfl⟩
instance : Shape.parenthesized.Bare := ⟨rfl⟩
instance : Shape.invalid.Bare := ⟨rfl⟩
instance : Shape.other.Bare := ⟨rfl⟩

instance bare_ite {c : Prop} [Decidable c] {a b : Shape} [a.Bare] [b.Bare] :
    (if c then a else b).Bare := by
  split <;> assumption

instance placed_bare (start : Nat) (shape : Shape) [h : shape.Bare] :
    Placed text lo hi (⟨start, shape⟩ : Expression) :=
  placed_of_bare h.bare

instance placed_ite [Bears α] {c : Prop} [Decidable c] {a b : α} [Placed text lo hi a]
    [Placed text lo hi b] : Placed text lo hi (if c then a else b) := by
  split <;> assumption

instance placed_none [Bears α] : Placed text lo hi (none : Option α) := placed_of_bare rfl

instance placed_some [Bears α] {a : α} [h : Placed text lo hi a] : Placed text lo hi (some a) :=
  ⟨fun literal hl => h.within literal (by simpa [literals] using hl)⟩

theorem Placed.of_some [Bears α] {a : α} (h : Placed text lo hi (some a)) : Placed text lo hi a :=
  ⟨fun literal hl => h.within literal (by simpa [literals] using hl)⟩

instance placed_nil [Bears α] : Placed text lo hi ([] : List α) := placed_of_bare rfl

instance placed_cons [Bears α] {a : α} {list : List α} [h : Placed text lo hi a]
    [h' : Placed text lo hi list] : Placed text lo hi (a :: list) := by
  refine ⟨fun literal hl => ?_⟩
  rcases List.mem_append.1 (show literal ∈ literals a ++ literals list from hl) with hl | hl
  · exact h.within literal hl
  · exact h'.within literal hl

theorem Placed.of_cons [Bears α] {a : α} {list : List α} (h : Placed text lo hi (a :: list)) :
    Placed text lo hi a :=
  ⟨fun literal hl => h.within literal (List.mem_append_left _ hl)⟩

instance placed_pair [Bears α] {a : α} {b : β} [h : Placed text lo hi a] :
    Placed text lo hi (a, b) := ⟨h.within⟩

theorem Placed.fst [Bears α] {a : α} {b : β} (h : Placed text lo hi (a, b)) :
    Placed text lo hi a := ⟨h.within⟩

instance placed_element (spread : Bool) (e : Expression) [h : Placed text lo hi e] :
    Placed text lo hi (⟨spread, e⟩ : Element) := ⟨h.within⟩

instance placed_callee (e : Expression) [h : Placed text lo hi e] :
    Placed text lo hi (Callee.expression e) := ⟨h.within⟩

/-- The expression that a callee is stands where the callee does. -/
instance (priority := low) placed_of_callee {e : Expression}
    [h : Placed text lo hi (Callee.expression e)] : Placed text lo hi e := ⟨h.within⟩

instance placed_superclass (start : Nat) : Placed text lo hi (Callee.superclass start) :=
  placed_of_bare rfl

instance placed_module (start : Nat) : Placed text lo hi (Callee.module_ start) :=
  placed_of_bare rfl

instance placed_other : Placed text lo hi Item.other := placed_of_bare rfl

instance placed_accessOf (callee : Callee) (optional : Bool) :
    Placed text lo hi (accessOf callee optional) := by
  unfold accessOf
  split <;> infer_instance

/-- The one call of which something is remembered takes its path from its argument. -/
instance placed_callOf (callee : Callee) (arguments : List Element)
    [h : Placed text lo hi arguments] : Placed text lo hi (callOf callee arguments) := by
  unfold callOf
  dsimp only
  split
  · exact ⟨h.of_cons.within⟩
  all_goals infer_instance

-- ---------------------------------------------------------------------------
-- Readers
-- ---------------------------------------------------------------------------

/-- The literals in what the reader gives lie between where it starts and where it ends. -/
class Places (text : List Char) (lo hi : Nat) [Bears α] (reader : Parse α) : Prop where
  places : ∀ {s s' : State} {a : α}, Ahead text lo s → reader s = .ok a s' →
    ¬ Ahead text (hi + 1) s' → Placed text lo hi a

instance places_mute [Bears α] [Mute α] {reader : Parse α} : Places text lo hi reader :=
  ⟨fun _ _ _ => inferInstance⟩

instance places_pure [Bears α] (a : α) [h : Placed text lo hi a] :
    Places text lo hi (pure a : Parse α) :=
  ⟨fun _ hRun _ => by cases hRun; exact h⟩

instance places_throw [Bears α] (e : Nat) : Places text lo hi (throw e : Parse α) :=
  ⟨fun _ hRun _ => by cases hRun⟩

/-- Two readers that end with a value one after the other do so each. -/
theorem ok_of_bind {reader : Parse α} {next : α → Parse β} {s s' : State} {b : β}
    (h : (reader >>= next) s = .ok b s') :
    ∃ a s₁, reader s = .ok a s₁ ∧ next a s₁ = .ok b s' := by
  replace h : EStateM.bind reader next s = .ok b s' := h
  unfold EStateM.bind at h
  split at h
  · rename_i a s₁ hFirst
    exact ⟨a, s₁, hFirst, h⟩
  · cases h

/-- One reader after another. The second one may use where the value of the first one stands. -/
theorem Places.bind [Bears α] [Bears β] {reader : Parse α} {next : α → Parse β}
    [Keeps text lo reader] (h : Places text lo hi reader)
    (hKeeps : ∀ a, Keeps text (hi + 1) (next a))
    (hNext : ∀ a, Placed text lo hi a → Places text lo hi (next a)) :
    Places text lo hi (reader >>= next) := by
  refine ⟨fun {s s' b} hAhead hRun hEnd => ?_⟩
  obtain ⟨a, s₁, hFirst, hSecond⟩ := ok_of_bind hRun
  have hBetween : ¬ Ahead text (hi + 1) s₁ := fun hAhead₁ => hEnd ((hKeeps a).ok hAhead₁ hSecond)
  have hPlaced : Placed text lo hi a := h.places hAhead hFirst hBetween
  exact (hNext a hPlaced).places (Keeps.ok hAhead hFirst) hSecond hEnd

/-- Where nothing depends on the value of the first reader, its place plays no part. -/
theorem Places.behind [Bears β] {reader : Parse α} {next : α → Parse β} [Keeps text lo reader]
    (hNext : ∀ a, Places text lo hi (next a)) : Places text lo hi (reader >>= next) := by
  refine ⟨fun {s s' b} hAhead hRun hEnd => ?_⟩
  obtain ⟨a, s₁, hFirst, hSecond⟩ := ok_of_bind hRun
  exact (hNext a).places (Keeps.ok hAhead hFirst) hSecond hEnd

instance places_bind [Bears β] {reader : Parse α} {next : α → Parse β} [Keeps text lo reader]
    [hNext : ∀ a, Places text lo hi (next a)] : Places text lo hi (reader >>= next) :=
  .behind hNext

/-- The value of a reader is passed on as it is. -/
instance places_some [Bears α] {reader : Parse α} [Keeps text lo reader]
    [h : Places text lo hi reader] : Places text lo hi (reader >>= fun a => pure (some a)) :=
  h.bind inferInstance fun _ _ => inferInstance

instance places_pair [Bears α] {reader : Parse α} (b : β) [Keeps text lo reader]
    [h : Places text lo hi reader] : Places text lo hi (reader >>= fun a => pure (a, b)) :=
  h.bind inferInstance fun _ _ => inferInstance

/-- A reader that depends on whether something was found may use where that stands. -/
theorem Places.found [Bears α] [Bears β] {reader : Parse (Option α)} {next : Option α → Parse β}
    [Keeps text lo reader] (h : Places text lo hi reader)
    (hKeepsSome : ∀ a, Keeps text (hi + 1) (next (some a)))
    (hKeepsNone : Keeps text (hi + 1) (next none))
    (hSome : ∀ a, Placed text lo hi a → Places text lo hi (next (some a)))
    (hNone : Places text lo hi (next none)) : Places text lo hi (reader >>= next) := by
  refine h.bind (fun found? => ?_) fun found? hPlaced => ?_
  · cases found? with
    | none => exact hKeepsNone
    | some found => exact hKeepsSome found
  · cases found? with
    | none => exact hNone
    | some found => exact hSome found hPlaced.of_some

instance places_ite [Bears α] {c : Prop} [Decidable c] {a b : Parse α} [Places text lo hi a]
    [Places text lo hi b] : Places text lo hi (if c then a else b) := by
  split <;> assumption

instance places_faultAt [Bears α] (offset : Nat) :
    Places text lo hi (faultAt offset : Parse α) := by
  unfold faultAt
  refine .behind fun token? => ?_
  dsimp only
  split <;> infer_instance

instance places_fault [Bears α] : Places text lo hi (fault : Parse α) := by
  unfold fault
  refine .behind fun lexeme? => ?_
  split <;> infer_instance

-- ---------------------------------------------------------------------------
-- Control
-- ---------------------------------------------------------------------------

theorem Places.within [Bears α] {change : Modes → Modes} {reader : Parse α}
    (h : Places text lo hi reader) : Places text lo hi (within change reader) := by
  refine ⟨fun {s s' a} hAhead hRun hEnd => ?_⟩
  unfold Grammar.within at hRun
  split at hRun
  · rename_i a₁ s₁ hInner
    cases hRun
    exact h.places (hAhead.of_modes _) hInner fun hAhead₁ => hEnd (hAhead₁.of_modes _)
  · cases hRun

instance places_within [Bears α] {change : Modes → Modes} {reader : Parse α}
    [h : Places text lo hi reader] : Places text lo hi (within change reader) := h.within

theorem Places.trial [Bears α] {reader : Parse (Option α)} (h : Places text lo hi reader) :
    Places text lo hi (trial reader) := by
  refine ⟨fun {s s' a?} hAhead hRun hEnd => ?_⟩
  unfold Grammar.trial at hRun
  split at hRun
  · rename_i hInner
    cases hRun
    exact h.places hAhead hInner hEnd
  · cases hRun
    infer_instance
  · cases hRun
    infer_instance

instance places_trial [Bears α] {reader : Parse (Option α)} [h : Places text lo hi reader] :
    Places text lo hi (trial reader) := h.trial

instance places_orElse [Bears α] {reader : Parse α} {handler : Nat → Parse α}
    [Keeps text lo reader] [h : Places text lo hi reader]
    [hHandler : ∀ e, Places text lo hi (handler e)] :
    Places text lo hi (orElse reader handler) := by
  refine ⟨fun {s s' a} hAhead hRun hEnd => ?_⟩
  unfold orElse at hRun
  split at hRun
  · rename_i hInner
    cases hRun
    exact h.places hAhead hInner hEnd
  · rename_i e s₁ hInner
    exact (hHandler e).places (Keeps.error hAhead hInner) hRun hEnd

instance places_collectWithin [Bears α] {reader : Parse (Option α)} [Keeps text lo reader]
    [Keeps text (hi + 1) reader] [Places text lo hi reader] (bound : Nat) :
    Places text lo hi (collectWithin reader bound) := by
  induction bound with
  | zero =>
    unfold collectWithin
    infer_instance
  | succ bound ih =>
    unfold collectWithin
    refine .found inferInstance (fun a => ?_) ?_ (fun a _ => ?_) ?_ <;> dsimp only
    · infer_instance
    · infer_instance
    · exact .bind ih inferInstance fun list _ => inferInstance
    · infer_instance

instance places_collect [Bears α] {reader : Parse (Option α)} [Keeps text lo reader]
    [Keeps text (hi + 1) reader] [Places text lo hi reader] :
    Places text lo hi (collect reader) := by
  unfold collect
  infer_instance

-- ---------------------------------------------------------------------------
-- Strings in hand
-- ---------------------------------------------------------------------------

/-- Behind a lexeme in hand that is told from the text again, everything lies from its end on. -/
theorem Ahead.behind {s : State} {lexeme : Lexeme} (h : Ahead text lo s)
    (hHand : s.current = some lexeme) (hFree : lexeme.token.isFree = false) :
    Ahead text lexeme.stop
      { s with current := none, previousStart := lexeme.start, previousStop := lexeme.stop } where
  text_eq := h.text_eq
  atCut := h.atCut
  offset := (h.current lexeme hHand).stop hFree
  current := by simp
  following next hNext :=
    have hAwaits := h.following next hNext
    ⟨hAwaits.stands, h.ordered lexeme hHand next hNext hFree, hAwaits.stop⟩
  ordered := by simp

/-- A reader that takes a string in hand and ends there may remember it. -/
theorem Ahead.within_of_advance {s s' : State} {start stop : Nat} {value : String}
    {afterBreak : Bool} {a b : α} (h : Ahead text lo s)
    (hHand : s.current = some ⟨.str value, start, stop, afterBreak⟩)
    (hRun : (Grammar.advance >>= fun _ => (pure a : Parse α)) s = .ok b s')
    (hEnd : ¬ Ahead text (hi + 1) s') :
    a = b ∧ Literal.Within text lo hi ⟨start, stop, value⟩ := by
  have hAwaits := h.current _ hHand
  have hBehind := h.behind hHand rfl
  simp only [bind, EStateM.bind, advance_of_some hHand] at hRun
  cases hRun
  refine ⟨rfl, hAwaits.stands.string value rfl, hAwaits.start rfl, Nat.le_of_not_lt fun hStop => ?_⟩
  exact hEnd (hBehind.mono hStop)

/-- A reader that depends on the lexeme in hand may use that it is in hand. -/
theorem places_current_bind [Bears α] {next : Option Lexeme → Parse α}
    (h : ∀ {lexeme? s s' a}, Ahead text lo s → s.current = lexeme? → next lexeme? s = .ok a s' →
      ¬ Ahead text (hi + 1) s' → Placed text lo hi a) :
    Places text lo hi (current? >>= next) := by
  refine ⟨fun {s s' a} hAhead hRun hEnd => ?_⟩
  obtain ⟨lexeme?, s₁, hLook, hHand⟩ := current?_spec s
  simp only [bind, EStateM.bind, hLook] at hRun
  exact h (Keeps.ok hAhead hLook) hHand hRun hEnd

-- ---------------------------------------------------------------------------
-- Literals one behind the other
-- ---------------------------------------------------------------------------

/-- What a reader gives ends before what is ahead when it ends. `hPlaces` places its literals
whatever is still ahead then, and so each of them ends in front of all that is. `h` and `hRun` say
that the reading begins with everything ahead from `lo` on, and succeeds. -/
theorem ahead_behind_literal [Bears α] {reader : Parse α}
    (hPlaces : ∀ hi, Places text lo hi reader) {s s' : State} {a : α} (h : Ahead text lo s)
    (hRun : reader s = .ok a s') {literal : Literal} (hLiteral : literal ∈ literals a) :
    StringAt text literal.start literal.stop literal.value ∧ lo ≤ literal.start ∧
      Ahead text literal.stop s' := by
  have hWithin : ∀ hi, ¬ Ahead text (hi + 1) s' → literal.Within text lo hi := fun hi hEnd =>
    ((hPlaces hi).places h hRun hEnd).within literal hLiteral
  -- nothing is ahead from behind the scanner on
  obtain ⟨hString, hStart, -⟩ := hWithin s'.scanner.offset fun hAhead =>
    absurd hAhead.offset (Nat.not_succ_le_self _)
  refine ⟨hString, hStart, ?_⟩
  have hPos : 0 < literal.stop := by
    obtain ⟨rest, length, -, hToken, hStop⟩ := hString
    have := hToken.length_pos
    omega
  by_contra hEnd
  have hStop := (hWithin (literal.stop - 1) (by rwa [Nat.sub_add_cancel hPos])).stop
  omega

theorem pairwise_of_length_le_one {list : List Literal} (h : list.length ≤ 1) :
    list.Pairwise fun l r => l.stop ≤ r.start := by
  cases list with
  | nil => exact .nil
  | cons literal more =>
    obtain rfl : more = [] :=
      List.eq_nil_of_length_eq_zero (Nat.le_zero.1 (Nat.le_of_succ_le_succ h))
    exact List.pairwise_singleton _ _

/-- The literals in the values of a repetition follow one another. `hKeeps` and `hPlaces` say of
one round that it keeps what is ahead and places its literals, wherever it begins, and `hOne`
that its value holds one literal at most, so that none of them can be out of order within a
round. -/
theorem collectWithin_ordered [Bears α] {reader : Parse (Option α)}
    (hKeeps : ∀ lo, Keeps text lo reader) (hPlaces : ∀ lo hi, Places text lo hi reader)
    (hOne : ∀ a : α, (literals a).length ≤ 1) (bound : Nat) {s s' : State} {list : List α}
    (h : Ahead text lo s) (hRun : collectWithin reader bound s = .ok list s') :
    (∀ literal ∈ literals list,
      StringAt text literal.start literal.stop literal.value ∧ lo ≤ literal.start) ∧
    (literals list).Pairwise fun l r => l.stop ≤ r.start := by
  induction bound generalizing lo s list with
  | zero =>
    cases hRun
    simp [literals]
  | succ bound ih =>
    rw [collectWithin] at hRun
    obtain ⟨a?, s₁, hFirst, hRest⟩ := ok_of_bind hRun
    cases a? with
    | none =>
      cases hRest
      simp [literals]
    | some a =>
      obtain ⟨rest, s₂, hOthers, hPure⟩ := ok_of_bind hRest
      cases hPure
      have hHere : ∀ literal ∈ literals a, StringAt text literal.start literal.stop literal.value ∧
          lo ≤ literal.start ∧ Ahead text literal.stop s₁ := fun literal hl =>
        ahead_behind_literal (hPlaces lo) h hFirst (by simpa [literals] using hl)
      have hRest := ih ((hKeeps lo).ok h hFirst) hOthers
      have hSplit : literals (a :: rest) = literals a ++ literals rest := rfl
      rw [hSplit, List.pairwise_append]
      refine ⟨fun literal hl => ?_, ?_, hRest.2, fun l hl r hr => ?_⟩
      · rcases List.mem_append.1 hl with hl | hl
        · exact ⟨(hHere literal hl).1, (hHere literal hl).2.1⟩
        · exact hRest.1 literal hl
      · exact pairwise_of_length_le_one (hOne a)
      · exact ((ih (hHere l hl).2.2 hOthers).1 r hr).2

end Grammar

end Relocation.TypeScript

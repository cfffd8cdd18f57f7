import Relocation.Proofs.Grammar.Placing

/-!
# Expressions and their literals

The expressions that remember a literal are the string literals and the plain calls of `require`.
What is read around an expression may drop what it remembers, or pass it on, but no reader makes up
a literal: the one place where it is made is `readPrimary`, with the string in hand.

## Results

* `NestedPlaces`: readers of phrases that place the literals of the expressions they give;
* `Places` for every reader of an expression, an argument or a callee.
-/

namespace Relocation.TypeScript.Grammar

set_option synthInstance.maxSize 10000

-- ---------------------------------------------------------------------------
-- Phrases
-- ---------------------------------------------------------------------------

/-- Readers of phrases that place the literals of the expressions they give. An expression that is
read on from must be in place already. -/
class NestedPlaces (text : List Char) (lo hi : Nat) (sub : Nested) : Prop where
  assignment : Places text lo hi (sub .assignment)
  unary : Places text lo hi (sub .unary)
  operators : ∀ left strength [Placed text lo hi left],
    Places text lo hi (sub (.operators left strength))
  operand : Places text lo hi (sub .operand)
  object : Places text lo hi (sub .object)
  element : Places text lo hi (sub .element)

attribute [instance] NestedPlaces.assignment NestedPlaces.unary NestedPlaces.operators
  NestedPlaces.operand NestedPlaces.object NestedPlaces.element

variable {text : List Char} {lo hi : Nat} {sub : Nested}
  [∀ lo phrase, Keeps text lo (sub phrase)] [NestedPlaces text lo hi sub]

-- ---------------------------------------------------------------------------
-- Arguments and structures
-- ---------------------------------------------------------------------------

instance places_readValue : Places text lo hi (readValue sub) := by
  unfold readValue
  infer_instance

instance places_readExpression : Places text lo hi (readExpression sub) := by
  unfold readExpression
  refine .bind inferInstance inferInstance fun first _ => ?_
  infer_instance

instance places_readFullExpression : Places text lo hi (readFullExpression sub) := by
  unfold readFullExpression
  infer_instance

instance places_readSpreadable : Places text lo hi (readSpreadable sub) := by
  unfold readSpreadable
  refine .behind fun spread => .bind inferInstance inferInstance fun value _ => ?_
  infer_instance

instance places_readArguments : Places text lo hi (readArguments sub) := by
  unfold readArguments
  have hClosed (arguments : List Element) [Placed text lo hi arguments] : Places text lo hi
      (pure arguments >>= fun arguments => do expectSym ")"; return arguments) :=
    .bind inferInstance inferInstance fun arguments _ => inferInstance
  refine .within (.behind fun _ => .behind fun closed => ?_)
  dsimp only
  split
  · infer_instance
  · refine .bind inferInstance inferInstance fun first _ =>
      .bind inferInstance inferInstance fun others _ => ?_
    infer_instance

instance places_readArray : Places text lo hi (readArray sub) := by
  unfold readArray
  infer_instance

instance places_readObject : Places text lo hi (readObject sub) := by
  unfold readObject
  infer_instance

instance places_readElement : Places text lo hi (readElement sub) := by
  unfold readElement
  infer_instance

-- ---------------------------------------------------------------------------
-- Operations
-- ---------------------------------------------------------------------------

instance places_readAsserted (left : Expression) : Places text lo hi (readAsserted sub left) := by
  unfold readAsserted
  infer_instance

instance places_readOperators (left : Expression) (strength : Nat) [Placed text lo hi left] :
    Places text lo hi (readOperators sub left strength) := by
  unfold readOperators
  refine .behind fun asserted => ?_
  split
  · refine .bind inferInstance inferInstance fun asserted _ => ?_
    infer_instance
  · refine .behind fun token? => .behind fun m => ?_
    split <;> infer_instance

instance places_passOverOperand (offset : Nat) :
    Places text lo hi (passOverOperand offset) := by
  unfold passOverOperand
  refine .behind fun token => ?_
  split <;> infer_instance

instance places_readBinary : Places text lo hi (readBinary sub) := by
  unfold readBinary
  refine .bind inferInstance inferInstance fun left _ => ?_
  infer_instance

instance places_readConditional : Places text lo hi (readConditional sub) := by
  unfold readConditional
  refine .bind inferInstance inferInstance fun test _ => ?_
  infer_instance

instance places_finishAssignment (left : Expression) [Placed text lo hi left] :
    Places text lo hi (finishAssignment sub left) := by
  unfold finishAssignment
  refine .behind fun token? => ?_
  dsimp only
  split
  · split
    · infer_instance
    · split
      · split <;> infer_instance
      · infer_instance
  · infer_instance

-- ---------------------------------------------------------------------------
-- Parentheses and names
-- ---------------------------------------------------------------------------

instance places_readArrow (start : Nat) (items : List ParenItem) (isAsync allowed : Bool) :
    Places text lo hi (readArrow sub start items isAsync allowed) := by
  unfold readArrow
  infer_instance

instance places_ofParenItems (start : Nat) (items : List ParenItem) (isAsync : Bool) :
    Places text lo hi (ofParenItems start items isAsync) := by
  unfold ofParenItems
  dsimp only
  split
  · infer_instance
  · split
    · refine .behind fun _ => ?_
      split <;> infer_instance
    · split <;> infer_instance

instance places_readParenthesized (start : Nat) (isAsync arrowAllowed : Bool) :
    Places text lo hi (readParenthesized sub start isAsync arrowAllowed) := by
  unfold readParenthesized
  infer_instance

instance places_readAsyncArrow (start : Nat) : Places text lo hi (readAsyncArrow sub start) := by
  unfold readAsyncArrow
  infer_instance

instance places_readNameOrArrow (start : Nat) (arrowAllowed : Bool) :
    Places text lo hi (readNameOrArrow sub start arrowAllowed) := by
  unfold readNameOrArrow
  infer_instance

instance places_readAsyncOperand? (start : Nat) (arrowAllowed : Bool) :
    Places text lo hi (readAsyncOperand? sub start arrowAllowed) := by
  unfold readAsyncOperand?
  infer_instance

-- ---------------------------------------------------------------------------
-- Operands
-- ---------------------------------------------------------------------------

instance places_readPrimary : Places text lo hi (readPrimary sub) := by
  unfold readPrimary
  refine .behind fun start => .behind fun s => ?_
  dsimp only
  refine places_current_bind fun {found s s' e} hAhead hHand hRun hEnd => ?_
  split at hRun
  -- the string in hand is what the expression remembers
  case h_7 value stringStart stop afterBreak =>
    obtain ⟨rfl, hWithin⟩ := hAhead.within_of_advance hHand hRun hEnd
    exact ⟨fun literal hl => by cases List.mem_singleton.1 hl; exact hWithin⟩
  -- a regular expression is read from a slash in hand; of its text nothing is remembered
  case h_11 | h_12 =>
    obtain ⟨_, _, -, hRegex⟩ := ok_of_bind hRun
    obtain ⟨_, _, -, hOther⟩ := ok_of_bind hRegex
    cases hOther
    infer_instance
  case h_15 =>
    refine (?_ : Places text lo hi _).places hAhead hRun hEnd
    split
    · refine .found inferInstance (fun e => ?_) ?_ (fun e _ => ?_) ?_ <;> infer_instance
    · infer_instance
  all_goals exact Places.places hAhead hRun hEnd

-- ---------------------------------------------------------------------------
-- What follows an operand
-- ---------------------------------------------------------------------------

instance places_readGenericTrailer? (callee : Expression) (calls : Bool) :
    Places text lo hi (readGenericTrailer? sub callee calls) := by
  have hCall : Places text lo hi (readArguments sub >>= fun arguments =>
      pure (some (callOf (.expression callee) arguments)) : Parse (Option Expression)) :=
    .bind inferInstance inferInstance fun arguments _ => inferInstance
  unfold readGenericTrailer?
  infer_instance

instance places_readIndex? (callee : Callee) (optional : Bool) :
    Places text lo hi (readIndex? sub callee optional) := by
  unfold readIndex?
  refine .behind fun dotted => ?_
  cases callee <;> cases optional <;> infer_instance

instance places_readCall? (callee : Callee) (optional calls : Bool) :
    Places text lo hi (readCall? sub callee optional calls) := by
  have hCall : Places text lo hi (readArguments sub >>= fun arguments =>
      if optional then
        match callee with
        | .expression e => pure (some ⟨e.start, .chain⟩)
        | _ => fault
      else pure (some (callOf callee arguments)) : Parse (Option Expression)) := by
    refine .bind inferInstance (fun arguments => ?_) fun arguments _ => ?_
    · cases callee <;> infer_instance
    · cases callee <;> infer_instance
  unfold readCall?
  infer_instance

instance places_readMember (callee : Callee) (optional : Bool) :
    Places text lo hi (readMember sub callee optional) := by
  unfold readMember
  refine .behind fun name? => .behind fun generic => ?_
  split
  · split <;> infer_instance
  · infer_instance
  · infer_instance

instance places_readTrailer (callee : Callee) (calls indices : Bool) [Placed text lo hi callee] :
    Places text lo hi (readTrailer sub callee calls indices) := by
  unfold readTrailer
  refine .behind fun asserted => ?_
  dsimp only
  -- each form in turn is read or left to the next one
  cases callee <;>
    repeat' first
      | infer_instance
      | refine .found inferInstance (fun _ => inferInstance) ?_ (fun _ _ => inferInstance) ?_
      | refine .bind inferInstance fun _ => ?_
      | refine .behind fun _ => ?_
      | split

instance places_readTrailersWithin (calls indices : Bool) (bound : Nat) (callee : Callee)
    [Placed text lo hi callee] :
    Places text lo hi (readTrailersWithin sub calls indices bound callee) := by
  induction bound generalizing callee with
  | zero =>
    unfold readTrailersWithin
    infer_instance
  | succ bound ih =>
    unfold readTrailersWithin
    refine .bind inferInstance (fun trailer => ?_) fun trailer hPlaced => ?_
    · split <;> infer_instance
    · split
      all_goals
        have := hPlaced.fst
        infer_instance

instance places_readTrailers (callee : Callee) (calls indices : Bool)
    [Placed text lo hi callee] : Places text lo hi (readTrailers sub callee calls indices) := by
  unfold readTrailers
  infer_instance

-- ---------------------------------------------------------------------------
-- Constructions, imports and calls
-- ---------------------------------------------------------------------------

instance places_readImportOperand (start : Nat) (calls : Bool) :
    Places text lo hi (readImportOperand sub start calls) := by
  unfold readImportOperand
  refine .behind fun dotted => ?_
  split
  · refine .behind fun word => ?_
    split <;> infer_instance
  · infer_instance

instance places_readConstruction (start : Nat) :
    Places text lo hi (readConstruction sub start) := by
  unfold readConstruction
  refine .behind fun dotted => ?_
  split
  · infer_instance
  · refine .bind inferInstance inferInstance fun callee _ => ?_
    infer_instance

instance places_readOperand : Places text lo hi (readOperand sub) := by
  unfold readOperand
  refine .within (.behind fun start => .behind fun isNew => ?_)
  split
  · infer_instance
  · refine .behind fun isSuper => ?_
    split
    · infer_instance
    · refine .behind fun isImport => ?_
      split
      · infer_instance
      · refine .bind inferInstance inferInstance fun primary _ => ?_
        infer_instance

instance places_readLeftHand : Places text lo hi (readLeftHand sub) := by
  have hCall (callee : Expression) : Places text lo hi (readArguments sub >>= fun arguments =>
      readTrailers sub (.expression (callOf (.expression callee) arguments)) true true) :=
    .bind inferInstance inferInstance fun arguments _ => inferInstance
  unfold readLeftHand
  refine .behind fun start => .behind fun s => ?_
  dsimp only
  -- an operand with what follows it comes in wherever the text is no markup
  repeat' first
    | infer_instance
    | refine .bind inferInstance inferInstance fun callee _ => ?_
    | refine .behind fun _ => ?_
    | split

-- ---------------------------------------------------------------------------
-- Prefix operators and whole expressions
-- ---------------------------------------------------------------------------

instance places_readAwait (start : Nat) : Places text lo hi (readAwait sub start) := by
  unfold readAwait
  infer_instance

instance places_readAssertion (start : Nat) : Places text lo hi (readAssertion sub start) := by
  unfold readAssertion
  infer_instance

instance places_readUnary : Places text lo hi (readUnary sub) := by
  unfold readUnary
  refine .behind fun start => .behind fun s => .behind fun asserts => ?_
  split
  · infer_instance
  · refine .behind fun steps => ?_
    split
    · infer_instance
    · refine .behind fun operates => ?_
      split
      · infer_instance
      · refine .behind fun awaits => ?_
        split
        · infer_instance
        · refine .bind inferInstance inferInstance fun operand _ => ?_
          infer_instance

instance places_readYield : Places text lo hi (readYield sub) := by
  unfold readYield
  infer_instance

instance places_readPlainAssignment : Places text lo hi (readPlainAssignment sub) := by
  unfold readPlainAssignment
  refine .behind fun m => .behind fun yields => ?_
  split
  · infer_instance
  · refine .behind fun token => .behind fun start => .behind fun _ =>
      .bind inferInstance (fun condition => ?_) fun condition _ => ?_
    all_goals
      split <;> infer_instance

instance places_readGenericFunction? : Places text lo hi (readGenericFunction? sub) := by
  unfold readGenericFunction?
  refine .behind fun opens => ?_
  split
  · refine .behind fun ahead? => ?_
    dsimp only
    split <;> infer_instance
  · infer_instance

instance places_readAssignment : Places text lo hi (readAssignment sub) := by
  have hKeeps (lo : Nat) : Keeps text lo
      (do
        match ← readGenericFunction? sub with
        | some e => return e
        | none => readPlainAssignment sub : Parse Expression) := by
    refine .bind inferInstance fun found? => ?_
    split <;> infer_instance
  have hFunction : Places text lo hi
      (do
        match ← readGenericFunction? sub with
        | some e => return e
        | none => readPlainAssignment sub : Parse Expression) := by
    refine .found inferInstance (fun e => ?_) ?_ (fun e _ => ?_) ?_ <;> infer_instance
  unfold readAssignment
  refine .behind fun opens => ?_
  dsimp only
  split
  · refine .found inferInstance (fun e => ?_) ?_ (fun e _ => ?_) ?_
    all_goals
      dsimp only
      infer_instance
  · infer_instance

end Relocation.TypeScript.Grammar

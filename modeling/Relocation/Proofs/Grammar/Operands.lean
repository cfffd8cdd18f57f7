import Relocation.Proofs.Grammar.Structures
import Relocation.TypeScript.Grammar.Classes
import Relocation.TypeScript.Grammar.Operators

/-!
# Operands, operators and classes keep what is ahead
-/

namespace Relocation.TypeScript.Grammar

set_option synthInstance.maxSize 10000

variable {text : List Char} {lo : Nat} {sub : Nested} [∀ phrase, Keeps text lo (sub phrase)]

-- ---------------------------------------------------------------------------
-- Operations
-- ---------------------------------------------------------------------------

instance keeps_readAsserted (left : Expression) : Keeps text lo (readAsserted sub left) := by
  unfold readAsserted
  infer_instance

instance keeps_readOperators (left : Expression) (strength : Nat) :
    Keeps text lo (readOperators sub left strength) := by
  unfold readOperators
  refine .bind inferInstance fun asserted => ?_
  split
  · infer_instance
  · refine .bind inferInstance fun token? => .bind inferInstance fun m => ?_
    split <;> infer_instance

instance keeps_passOverOperand (offset : Nat) : Keeps text lo (passOverOperand offset) := by
  unfold passOverOperand
  refine .bind inferInstance fun token => ?_
  split <;> infer_instance

instance keeps_readBinary : Keeps text lo (readBinary sub) := by
  unfold readBinary
  infer_instance

instance keeps_readBranches : Keeps text lo (readBranches sub) := by
  unfold readBranches
  infer_instance

instance keeps_readConditional : Keeps text lo (readConditional sub) := by
  unfold readConditional
  infer_instance

instance keeps_finishAssignment (left : Expression) :
    Keeps text lo (finishAssignment sub left) := by
  unfold finishAssignment
  refine .bind inferInstance fun token? => ?_
  dsimp only
  split
  · split
    · infer_instance
    · split
      · split <;> infer_instance
      · infer_instance
  · infer_instance

-- ---------------------------------------------------------------------------
-- Operands
-- ---------------------------------------------------------------------------

instance keeps_opensAsync : Keeps text lo opensAsync := by
  unfold opensAsync
  refine .bind inferInstance fun isAsync => ?_
  split
  · refine .bind inferInstance fun ahead? => ?_
    split <;> infer_instance
  · infer_instance

instance keeps_readParenElement : Keeps text lo (readParenElement sub) := by
  unfold readParenElement
  infer_instance

instance keeps_readParenQuestion (element : Element) :
    Keeps text lo (readParenQuestion sub element) := by
  have hNamed : Keeps text lo
      (match element.value.shape with
      | .name _ => pure (element, true)
      | _ => faultAt element.value.start : Parse (Element × Bool)) := by
    split <;> infer_instance
  unfold readParenQuestion
  refine .bind inferInstance fun asks => ?_
  split
  · refine .bind inferInstance fun ahead? => ?_
    dsimp only
    split <;> infer_instance
  · infer_instance

instance keeps_readParenItem : Keeps text lo (readParenItem sub) := by
  unfold readParenItem
  refine .bind inferInstance fun element => .bind inferInstance fun read => ?_
  dsimp only
  refine .bind inferInstance fun isParameter => ?_
  split
  · split <;> infer_instance
  · infer_instance

instance keeps_readParenItems : Keeps text lo (readParenItems sub) := by
  unfold readParenItems
  refine .bind inferInstance fun _ => .bind (.collect (.bind inferInstance fun closes => ?_))
    fun items => inferInstance
  split
  · infer_instance
  · refine .bind inferInstance fun isAsync => .bind inferInstance fun start =>
      .bind inferInstance fun _ => .bind inferInstance fun _ => .bind inferInstance fun item =>
        .bind inferInstance fun arrow => ?_
    dsimp only
    split
    · split <;> infer_instance
    · infer_instance

instance keeps_checkParameters (items : List ParenItem) :
    Keeps text lo (checkParameters items) := by
  unfold checkParameters
  split <;> infer_instance

instance keeps_readBranchArrow? (items : List ParenItem) (isAsync : Bool) :
    Keeps text lo (readBranchArrow? sub items isAsync) := by
  unfold readBranchArrow?
  infer_instance

instance keeps_readArrow (start : Nat) (items : List ParenItem) (isAsync : Bool) (allowed : Bool) :
    Keeps text lo (readArrow sub start items isAsync allowed) := by
  unfold readArrow
  infer_instance

instance keeps_ofParenItems (start : Nat) (items : List ParenItem) (isAsync : Bool) :
    Keeps text lo (ofParenItems start items isAsync) := by
  unfold ofParenItems
  dsimp only
  split
  · infer_instance
  · split
    · refine .bind inferInstance fun _ => ?_
      split <;> infer_instance
    · split <;> infer_instance

instance keeps_readParenthesized (start : Nat) (isAsync : Bool) (arrowAllowed : Bool) :
    Keeps text lo (readParenthesized sub start isAsync arrowAllowed) := by
  unfold readParenthesized
  infer_instance

instance keeps_readAsyncArrow (start : Nat) : Keeps text lo (readAsyncArrow sub start) := by
  unfold readAsyncArrow
  infer_instance

instance keeps_readNameOrArrow (start : Nat) (arrowAllowed : Bool) :
    Keeps text lo (readNameOrArrow sub start arrowAllowed) := by
  unfold readNameOrArrow
  infer_instance

instance keeps_readAsyncOperand? (start : Nat) (arrowAllowed : Bool) :
    Keeps text lo (readAsyncOperand? sub start arrowAllowed) := by
  unfold readAsyncOperand?
  infer_instance

instance keeps_readPrimary : Keeps text lo (readPrimary sub) := by
  unfold readPrimary
  refine .bind inferInstance fun start => .bind inferInstance fun s => ?_
  dsimp only
  refine keeps_current_bind fun found s h hHand => ?_
  split
  -- a slash in hand starts a regular expression
  case h_11 => exact ahead_rereadPattern_bind h hHand rfl fun _ => inferInstance
  case h_12 => exact ahead_rereadPattern_bind h hHand rfl fun _ => inferInstance
  case h_15 =>
    refine (?_ : Keeps text lo _).keeps s h
    split
    · refine .bind inferInstance fun operand? => ?_
      split <;> infer_instance
    · infer_instance
  all_goals exact Keeps.keeps s h

instance keeps_readTagged : Keeps text lo (readTagged sub) := by
  unfold readTagged
  infer_instance

instance keeps_readGenericTrailer? (callee : Expression) (calls : Bool) :
    Keeps text lo (readGenericTrailer? sub callee calls) := by
  unfold readGenericTrailer?
  infer_instance

instance keeps_eatOptionalMark : Keeps text lo eatOptionalMark := by
  unfold eatOptionalMark
  infer_instance

instance keeps_readIndex? (callee : Callee) (optional : Bool) :
    Keeps text lo (readIndex? sub callee optional) := by
  unfold readIndex?
  refine .bind inferInstance fun _ => ?_
  split <;> infer_instance

instance keeps_readCall? (callee : Callee) (optional : Bool) (calls : Bool) :
    Keeps text lo (readCall? sub callee optional calls) := by
  have hOptional : Keeps text lo
      (match callee with
      | .expression e => pure (some ⟨e.start, .chain⟩)
      | _ => fault : Parse (Option Expression)) := by
    split <;> infer_instance
  unfold readCall?
  infer_instance

instance keeps_readMember (callee : Callee) (optional : Bool) :
    Keeps text lo (readMember sub callee optional) := by
  unfold readMember
  refine .bind inferInstance fun name? => .bind inferInstance fun generic => ?_
  split
  · split <;> infer_instance
  · infer_instance
  · infer_instance

instance keeps_readTrailer (callee : Callee) (calls : Bool) (indices : Bool) :
    Keeps text lo (readTrailer sub callee calls indices) := by
  unfold readTrailer
  refine .bind inferInstance fun asserted => ?_
  dsimp only
  split
  · refine .bind inferInstance fun _ => .bind inferInstance fun _ => ?_
    split
    · infer_instance
    · refine .bind inferInstance fun _ => ?_
      cases callee <;>
        repeat' first
          | infer_instance
          | refine .bind inferInstance fun _ => ?_
          | split
  · -- each form in turn is read or left to the next one
    cases callee <;>
      repeat' first
        | infer_instance
        | refine .bind inferInstance fun _ => ?_
        | split

instance keeps_readTrailersWithin (calls indices : Bool) (bound : Nat) (callee : Callee) :
    Keeps text lo (readTrailersWithin sub calls indices bound callee) := by
  induction bound generalizing callee with
  | zero =>
    unfold readTrailersWithin
    infer_instance
  | succ bound ih =>
    unfold readTrailersWithin
    refine .bind inferInstance fun trailer => ?_
    split <;> infer_instance

instance keeps_readTrailers (callee : Callee) (calls : Bool) (indices : Bool) :
    Keeps text lo (readTrailers sub callee calls indices) := by
  unfold readTrailers
  infer_instance

instance keeps_readImportOperand (start : Nat) (calls : Bool) :
    Keeps text lo (readImportOperand sub start calls) := by
  unfold readImportOperand
  refine .bind inferInstance fun dotted => ?_
  split
  · refine .bind inferInstance fun word => ?_
    split <;> infer_instance
  · infer_instance

instance keeps_readConstruction (start : Nat) : Keeps text lo (readConstruction sub start) := by
  unfold readConstruction
  infer_instance

instance keeps_readOperand : Keeps text lo (readOperand sub) := by
  unfold readOperand
  infer_instance

instance keeps_readLeftHand : Keeps text lo (readLeftHand sub) := by
  unfold readLeftHand
  refine .bind inferInstance fun start => .bind inferInstance fun s => ?_
  dsimp only
  split
  · refine .bind inferInstance fun token => ?_
    split <;> infer_instance
  · infer_instance

-- ---------------------------------------------------------------------------
-- Prefix operators and whole expressions
-- ---------------------------------------------------------------------------

instance keeps_readAwait (start : Nat) : Keeps text lo (readAwait sub start) := by
  unfold readAwait
  infer_instance

instance keeps_readAssertion (start : Nat) : Keeps text lo (readAssertion sub start) := by
  unfold readAssertion
  infer_instance

instance keeps_readUnary : Keeps text lo (readUnary sub) := by
  unfold readUnary
  infer_instance

instance keeps_readYield : Keeps text lo (readYield sub) := by
  unfold readYield
  infer_instance

instance keeps_readPlainAssignment : Keeps text lo (readPlainAssignment sub) := by
  unfold readPlainAssignment
  refine .bind inferInstance fun m => .bind inferInstance fun yields => ?_
  split
  · infer_instance
  · refine .bind inferInstance fun token => .bind inferInstance fun start =>
      .bind inferInstance fun _ => .bind inferInstance fun condition => ?_
    split <;> infer_instance

instance keeps_readGenericFunction? : Keeps text lo (readGenericFunction? sub) := by
  unfold readGenericFunction?
  refine .bind inferInstance fun opens => ?_
  split
  · refine .bind inferInstance fun ahead? => ?_
    dsimp only
    split <;> infer_instance
  · infer_instance

instance keeps_readAssignment : Keeps text lo (readAssignment sub) := by
  have hFunction : Keeps text lo (do
      match ← readGenericFunction? sub with
      | some e => pure e
      | none => readPlainAssignment sub) := by
    refine .bind inferInstance fun function? => ?_
    split <;> infer_instance
  unfold readAssignment
  refine .bind inferInstance fun opensTag => ?_
  dsimp only
  split
  · refine .bind inferInstance fun expression? => ?_
    split <;> infer_instance
  · infer_instance

-- ---------------------------------------------------------------------------
-- Classes
-- ---------------------------------------------------------------------------

instance keeps_seesMethod : Keeps text lo seesMethod := by
  unfold seesMethod
  infer_instance

instance keeps_seesProperty (lenient : Bool) : Keeps text lo (seesProperty lenient) := by
  unfold seesProperty
  infer_instance

instance keeps_seesNamedProperty (lenient : Bool) : Keeps text lo (seesNamedProperty lenient) := by
  unfold seesNamedProperty
  infer_instance

instance keeps_readClassKey : Keeps text lo (readClassKey sub) := by
  unfold readClassKey
  infer_instance

instance keeps_readMethod (isAsync : Bool) (isGenerator : Bool) :
    Keeps text lo (readMethod sub isAsync isGenerator) := by
  unfold readMethod
  infer_instance

instance keeps_readPropertyRest (key : Key) (optional : Bool) :
    Keeps text lo (readPropertyRest sub key optional) := by
  unfold readPropertyRest
  infer_instance

instance keeps_readNamedByModifier? (start : Nat) (word : String) (lenient : Bool) :
    Keeps text lo (readNamedByModifier? sub start word lenient) := by
  unfold readNamedByModifier?
  infer_instance

instance keeps_readConstructor : Keeps text lo (readConstructor sub) := by
  unfold readConstructor
  infer_instance

instance keeps_readMemberRest (start : Nat) (key : Key) (readOnly : Bool) (optional : Bool) :
    Keeps text lo (readMemberRest sub start key readOnly optional) := by
  unfold readMemberRest
  infer_instance

instance keeps_readMemberModifiers : Keeps text lo readMemberModifiers := by
  unfold readMemberModifiers
  infer_instance

instance keeps_readMemberBody (start : Nat) (isStatic : Bool) (accessible : Bool) :
    Keeps text lo (readMemberBody sub start isStatic accessible) := by
  unfold readMemberBody
  infer_instance

instance keeps_readClassMember : Keeps text lo (readClassMember sub) := by
  unfold readClassMember
  infer_instance

instance keeps_readSuperclass : Keeps text lo (readSuperclass sub) := by
  unfold readSuperclass
  infer_instance

instance keeps_readClassHeritage : Keeps text lo (readClassHeritage sub) := by
  unfold readClassHeritage
  repeat' first
    | infer_instance
    | refine .bind inferInstance fun _ => ?_
    | split

instance keeps_readClass (named : Bool) : Keeps text lo (readClass sub named) := by
  unfold readClass
  infer_instance

end Relocation.TypeScript.Grammar

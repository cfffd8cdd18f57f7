import Relocation.Proofs.Grammar.Types
import Relocation.TypeScript.Grammar.Markup
import Relocation.TypeScript.Grammar.Structures

/-!
# Bindings, functions, structures and markup keep what is ahead
-/

namespace Relocation.TypeScript.Grammar

set_option synthInstance.maxSize 10000

variable {text : List Char} {lo : Nat} {sub : Nested} [∀ phrase, Keeps text lo (sub phrase)]

-- ---------------------------------------------------------------------------
-- Bindings
-- ---------------------------------------------------------------------------

instance keeps_readValue : Keeps text lo (readValue sub) := by
  unfold readValue
  infer_instance

instance keeps_readKey : Keeps text lo (readKey sub) := by
  unfold readKey
  refine .within (.bind inferInstance fun start => .bind inferInstance fun token => ?_)
  split <;> infer_instance

instance keeps_readBindingElement : Keeps text lo (readBindingElement sub) := by
  unfold readBindingElement
  infer_instance

instance keeps_eatAmbientQuestionMark : Keeps text lo eatAmbientQuestionMark := by
  unfold eatAmbientQuestionMark
  infer_instance

instance keeps_readArrayBinding : Keeps text lo (readArrayBinding sub) := by
  unfold readArrayBinding
  infer_instance

instance keeps_readBindingProperty : Keeps text lo (readBindingProperty sub) := by
  unfold readBindingProperty
  refine .bind inferInstance fun start => .bind inferInstance fun restFollows => ?_
  split
  · infer_instance
  · refine .bind inferInstance fun key => .bind inferInstance fun valueFollows => ?_
    split
    · infer_instance
    · split <;> infer_instance

instance keeps_readObjectBinding : Keeps text lo (readObjectBinding sub) := by
  unfold readObjectBinding
  refine .within (.bind inferInstance fun _ => .bind inferInstance fun properties => ?_)
  dsimp only
  split <;> infer_instance

instance keeps_readBinding (letForbidden : Bool) :
    Keeps text lo (readBinding sub letForbidden) := by
  unfold readBinding
  refine .bind inferInstance fun _ => ?_
  split <;> infer_instance

-- ---------------------------------------------------------------------------
-- Functions
-- ---------------------------------------------------------------------------

instance keeps_readParameter : Keeps text lo (readParameter sub) := by
  unfold readParameter
  infer_instance

instance keeps_readRestParameter : Keeps text lo (readRestParameter sub) := by
  unfold readRestParameter
  infer_instance

instance keeps_readParameterEnd : Keeps text lo readParameterEnd := by
  unfold readParameterEnd
  infer_instance

instance keeps_readParameters : Keeps text lo (readParameters sub) := by
  unfold readParameters
  infer_instance

instance keeps_readConstructorParameters : Keeps text lo (readConstructorParameters sub) := by
  unfold readConstructorParameters
  infer_instance

instance keeps_readOptionalBody : Keeps text lo (readOptionalBody sub) := by
  unfold readOptionalBody
  infer_instance

instance keeps_readFunctionRest (isAsync : Bool) (isGenerator : Bool) :
    Keeps text lo (readFunctionRest sub isAsync isGenerator) := by
  unfold readFunctionRest
  infer_instance

instance keeps_readFunction (isAsync : Bool) (named : Bool) :
    Keeps text lo (readFunction sub isAsync named) := by
  unfold readFunction
  infer_instance

instance keeps_readFunctionOperand (isAsync : Bool) :
    Keeps text lo (readFunctionOperand sub isAsync) := by
  unfold readFunctionOperand
  infer_instance

instance keeps_readArrowBody (isAsync : Bool) : Keeps text lo (readArrowBody sub isAsync) := by
  unfold readArrowBody
  infer_instance

instance keeps_readGenericArrow? : Keeps text lo (readGenericArrow? sub) := by
  unfold readGenericArrow?
  infer_instance

-- ---------------------------------------------------------------------------
-- Structures
-- ---------------------------------------------------------------------------

instance keeps_readExpression : Keeps text lo (readExpression sub) := by
  unfold readExpression
  infer_instance

instance keeps_readFullExpression : Keeps text lo (readFullExpression sub) := by
  unfold readFullExpression
  infer_instance

instance keeps_readSpreadable : Keeps text lo (readSpreadable sub) := by
  unfold readSpreadable
  infer_instance

instance keeps_readArguments : Keeps text lo (readArguments sub) := by
  unfold readArguments
  infer_instance

instance keeps_readArray : Keeps text lo (readArray sub) := by
  unfold readArray
  infer_instance

instance keeps_readWordProperty (start : Nat) (word : String) :
    Keeps text lo (readWordProperty sub start word) := by
  unfold readWordProperty
  infer_instance

instance keeps_readProperty : Keeps text lo (readProperty sub) := by
  -- a name by itself is the only place where the kind of the name counts
  have hNamed (start : Nat) (key : Key) : Keeps text lo
      (match key.name with
      | .word word => readWordProperty sub start word
      | _ => fault : Parse PropertyFaults) := by
    split <;> infer_instance
  unfold readProperty
  infer_instance

instance keeps_readObject : Keeps text lo (readObject sub) := by
  unfold readObject
  infer_instance

-- ---------------------------------------------------------------------------
-- Markup
-- ---------------------------------------------------------------------------

instance keeps_readTagNamePart (plain : Bool) : Keeps text lo (readTagNamePart plain) := by
  unfold readTagNamePart
  refine .bind inferInstance fun _ => ?_
  split <;> infer_instance

instance keeps_readAttributeName (plain : Bool) : Keeps text lo (readAttributeName plain) := by
  unfold readAttributeName
  infer_instance

instance keeps_readTagName (plain : Bool) : Keeps text lo (readTagName plain) := by
  unfold readTagName
  infer_instance

instance keeps_eatTagEnd (plain : Bool) : Keeps text lo (eatTagEnd plain) := by
  unfold eatTagEnd
  infer_instance

instance keeps_readEmbedded : Keeps text lo (readEmbedded sub) := by
  unfold readEmbedded
  infer_instance

instance keeps_readAttributeValue : Keeps text lo (readAttributeValue sub) := by
  unfold Grammar.readAttributeValue
  refine .within (.bind inferInstance fun token => ?_)
  split <;> infer_instance

instance keeps_readAttribute (plain : Bool) : Keeps text lo (readAttribute sub plain) := by
  unfold readAttribute
  infer_instance

instance keeps_readOpeningTag (plain : Bool) : Keeps text lo (readOpeningTag sub plain) := by
  unfold readOpeningTag
  infer_instance

instance keeps_readClosingTag (plain : Bool) : Keeps text lo (readClosingTag plain) := by
  unfold readClosingTag
  infer_instance

instance keeps_readChild (plain : Bool) : Keeps text lo (readChild sub plain) := by
  unfold readChild
  refine .bind inferInstance fun _ => ?_
  split <;> infer_instance

instance keeps_readChildrenWithin (plain : Bool) (bound : Nat) :
    Keeps text lo (readChildrenWithin sub plain bound) := by
  induction bound with
  | zero =>
    unfold readChildrenWithin
    infer_instance
  | succ bound ih =>
    unfold readChildrenWithin
    refine .bind inferInstance fun closing? => ?_
    split <;> infer_instance

instance keeps_readElement : Keeps text lo (readElement sub) := by
  unfold readElement
  infer_instance

end Relocation.TypeScript.Grammar

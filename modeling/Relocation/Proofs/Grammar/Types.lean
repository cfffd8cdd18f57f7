import Relocation.Proofs.Grammar.Control
import Relocation.TypeScript.Grammar.Types

/-!
# Names and types keep what is ahead
-/

namespace Relocation.TypeScript.Grammar

set_option synthInstance.maxSize 10000

variable {text : List Char} {lo : Nat} {sub : Nested} [∀ phrase, Keeps text lo (sub phrase)]

-- ---------------------------------------------------------------------------
-- Names
-- ---------------------------------------------------------------------------

instance keeps_readAnyName : Keeps text lo readAnyName := by
  unfold readAnyName
  refine .bind inferInstance fun token => ?_
  split <;> infer_instance

instance keeps_readName (yieldAllowed : Bool) : Keeps text lo (readName yieldAllowed) := by
  unfold readName
  refine .bind inferInstance fun token => ?_
  split <;> infer_instance

instance keeps_readBoundName (letForbidden : Bool) :
    Keeps text lo (readBoundName letForbidden) := by
  unfold readBoundName
  infer_instance

instance keeps_readOptionalName (letForbidden : Bool) :
    Keeps text lo (readOptionalName letForbidden) := by
  unfold readOptionalName
  infer_instance

instance keeps_readPrivateName : Keeps text lo readPrivateName := by
  unfold readPrivateName
  infer_instance

instance keeps_readMemberName : Keeps text lo readMemberName := by
  unfold readMemberName
  infer_instance

instance keeps_eatModifier? (modifiers : List String) (beforeBlock : Bool) :
    Keeps text lo (eatModifier? modifiers beforeBlock) := by
  unfold eatModifier?
  refine .bind inferInstance fun token? => ?_
  split
  · -- the word is taken if what follows it is on the same line
    have hTaken : Keeps text lo (advance >>= fun _ => current? >>= fun
        | some lexeme => pure (!lexeme.afterLineBreak && mayFollowModifier lexeme.token)
        | none => pure false) :=
      .bind inferInstance fun _ => .bind inferInstance fun
        | some _ => keeps_pure _
        | none => keeps_pure _
    infer_instance
  · infer_instance

instance keeps_eatParameterModifier : Keeps text lo eatParameterModifier := by
  unfold eatParameterModifier
  infer_instance

instance keeps_eatAccessModifier : Keeps text lo eatAccessModifier := by
  unfold eatAccessModifier
  refine .bind inferInstance fun modifier? => ?_
  cases modifier? <;> infer_instance

-- ---------------------------------------------------------------------------
-- Types
-- ---------------------------------------------------------------------------

instance keeps_readDelimited {closes : Parse Bool} [Keeps text lo closes]
    {readElement : Parse Unit} [Keeps text lo readElement] (lenient : Bool) :
    Keeps text lo (readDelimited closes readElement lenient) := by
  unfold readDelimited
  infer_instance

instance keeps_readMembers {readMember : Parse Unit} [Keeps text lo readMember] :
    Keeps text lo (readMembers readMember) := by
  unfold readMembers
  infer_instance

instance keeps_readTypeBehind (token : Token) : Keeps text lo (readTypeBehind sub token) := by
  unfold readTypeBehind
  infer_instance

instance keeps_readOptionalTypeBehind (token : Token) :
    Keeps text lo (readOptionalTypeBehind sub token) := by
  unfold readOptionalTypeBehind
  infer_instance

instance keeps_readOptionalAnnotation : Keeps text lo <| readOptionalAnnotation sub := by
  unfold readOptionalAnnotation
  infer_instance

instance keeps_readOptionalTypeParameters : Keeps text lo (readOptionalTypeParameters sub) := by
  unfold readOptionalTypeParameters
  infer_instance

instance keeps_readPlainTypeArguments : Keeps text lo (readPlainTypeArguments sub) := by
  unfold readPlainTypeArguments
  infer_instance

instance keeps_readOptionalTypeArguments : Keeps text lo (readOptionalTypeArguments sub) := by
  unfold readOptionalTypeArguments
  infer_instance

instance keeps_readEntityName (reservedAllowed : Bool) :
    Keeps text lo (readEntityName reservedAllowed) := by
  unfold readEntityName
  infer_instance

instance keeps_readSignatureParameters : Keeps text lo (readSignatureParameters sub) := by
  unfold readSignatureParameters
  infer_instance

instance keeps_readReturnType (symbol : String) : Keeps text lo (readReturnType sub symbol) := by
  unfold readReturnType
  infer_instance

instance keeps_readOptionalReturnType : Keeps text lo (readOptionalReturnType sub) := by
  unfold readOptionalReturnType
  infer_instance

instance keeps_skipParameterStart : Keeps text lo (skipParameterStart sub) := by
  unfold skipParameterStart
  infer_instance

instance keeps_opensFunctionType : Keeps text lo (opensFunctionType sub) := by
  unfold opensFunctionType
  infer_instance

instance keeps_readFunctionType : Keeps text lo (readFunctionType sub) := by
  unfold readFunctionType
  infer_instance

instance keeps_readMemberEnd : Keeps text lo readMemberEnd := by
  unfold readMemberEnd
  infer_instance

instance keeps_readCallSignature : Keeps text lo (readCallSignature sub) := by
  unfold readCallSignature
  infer_instance

instance keeps_readMemberKey : Keeps text lo (readMemberKey sub) := by
  unfold readMemberKey
  refine .bind inferInstance fun bracketed => ?_
  split
  · infer_instance
  · refine .within (.bind inferInstance fun token => ?_)
    split <;> infer_instance

instance keeps_opensIndexSignature : Keeps text lo opensIndexSignature := by
  unfold opensIndexSignature
  infer_instance

instance keeps_readIndexSignature? : Keeps text lo (readIndexSignature? sub) := by
  unfold readIndexSignature?
  infer_instance

instance keeps_readAccessorSignature? (readOnly : Bool) :
    Keeps text lo (readAccessorSignature? sub readOnly) := by
  unfold readAccessorSignature?
  infer_instance

instance keeps_readPropertyOrMethod (readOnly : Bool) :
    Keeps text lo (readPropertyOrMethod sub readOnly) := by
  unfold readPropertyOrMethod
  infer_instance

instance keeps_opensCallAhead : Keeps text lo opensCallAhead := by
  unfold opensCallAhead
  infer_instance

instance keeps_readTypeMember : Keeps text lo (readTypeMember sub) := by
  unfold readTypeMember
  infer_instance

instance keeps_readTypeMembers : Keeps text lo (readTypeMembers sub) := by
  unfold readTypeMembers
  infer_instance

instance keeps_opensMappedType : Keeps text lo opensMappedType := by
  unfold opensMappedType
  infer_instance

instance keeps_readSigned (token : Token) : Keeps text lo (readSigned token) := by
  unfold readSigned
  infer_instance

instance keeps_readMappedType : Keeps text lo (readMappedType sub) := by
  unfold readMappedType
  infer_instance

instance keeps_readTemplatePiece (tagged : Bool) : Keeps text lo (readTemplatePiece tagged) := by
  unfold readTemplatePiece
  refine .bind inferInstance fun token => ?_
  split
  · refine .bind inferInstance fun _ => ?_
    split <;> infer_instance
  · infer_instance

instance keeps_readTemplate (tagged : Bool) {readHole : Parse Unit} [Keeps text lo readHole] :
    Keeps text lo (readTemplate tagged readHole) := by
  unfold readTemplate
  infer_instance

instance keeps_readTypeReference : Keeps text lo (readTypeReference sub) := by
  unfold readTypeReference
  infer_instance

instance keeps_readImportType : Keeps text lo (readImportType sub) := by
  unfold readImportType
  refine .bind inferInstance fun _ => .bind inferInstance fun _ => .bind inferInstance fun _ =>
    .bind inferInstance fun _ => .bind inferInstance fun withAttributes => ?_
  split <;> infer_instance

instance keeps_readTypeQuery : Keeps text lo (readTypeQuery sub) := by
  unfold readTypeQuery
  infer_instance

instance keeps_readThisPredicate : Keeps text lo (readThisPredicate sub) := by
  unfold readThisPredicate
  infer_instance

instance keeps_readTupleElement : Keeps text lo (readTupleElement sub) := by
  unfold readTupleElement
  infer_instance

instance keeps_readTupleElements : Keeps text lo (readTupleElements sub) := by
  unfold readTupleElements
  infer_instance

instance keeps_readTuple : Keeps text lo (readTuple sub) := by
  unfold readTuple
  infer_instance

instance keeps_readTypeWord (word : String) : Keeps text lo (readTypeWord sub word) := by
  unfold readTypeWord
  infer_instance

instance keeps_readPrimaryType : Keeps text lo (readPrimaryType sub) := by
  unfold readPrimaryType
  refine .bind inferInstance fun token => ?_
  split
  -- behind a minus sign there must be a number
  case h_6 =>
    refine .bind inferInstance fun _ => .bind inferInstance fun behind => ?_
    split <;> infer_instance
  all_goals infer_instance

instance keeps_readIndexedType : Keeps text lo (readIndexedType sub) := by
  unfold readIndexedType
  infer_instance

instance keeps_readOperatorType (operator : String) {readConstituent : Parse Unit}
    [Keeps text lo readConstituent] :
    Keeps text lo (readOperatorType operator readConstituent) := by
  unfold readOperatorType
  infer_instance

instance keeps_readUnconditionalType : Keeps text lo (readUnconditionalType sub) := by
  unfold readUnconditionalType
  infer_instance

instance keeps_readInferredType : Keeps text lo (readInferredType sub) := by
  unfold readInferredType
  infer_instance

instance keeps_readTypeOperand : Keeps text lo (readTypeOperand sub) := by
  unfold readTypeOperand
  infer_instance

instance keeps_readType : Keeps text lo (readType sub) := by
  unfold readType
  infer_instance

instance keeps_readTypeArguments : Keeps text lo (readTypeArguments sub) := by
  unfold readTypeArguments
  infer_instance

instance keeps_readTypeParameter : Keeps text lo (readTypeParameter sub) := by
  unfold readTypeParameter
  infer_instance

instance keeps_readTypeParameters : Keeps text lo (readTypeParameters sub) := by
  unfold readTypeParameters
  infer_instance

instance keeps_readTypeArguments? : Keeps text lo (readTypeArguments? sub) := by
  unfold readTypeArguments?
  refine .trialBool (.bind inferInstance fun _ => .bind inferInstance fun refused => ?_)
  split
  · infer_instance
  · refine .bind inferInstance fun lexeme? => ?_
    split
    · infer_instance
    · split
      · infer_instance
      · split <;> infer_instance

instance keeps_readHeritage : Keeps text lo (readHeritage sub) := by
  unfold readHeritage
  infer_instance

end Relocation.TypeScript.Grammar

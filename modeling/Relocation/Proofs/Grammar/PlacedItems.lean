import Relocation.Proofs.Grammar.PlacedExpressions

/-!
# Items and their paths

An item of a module names a path by a string that was in hand, or by the argument of a call. Since
the items of a module are read one after the other, their paths follow one another in the text.

## Results

* `paths_itemsOf`: the paths of the items of a text are string tokens of it, in the order of the
  text, and no two of them overlap.
-/

namespace Relocation.TypeScript

namespace Grammar

set_option synthInstance.maxSize 10000

variable {text : List Char} {lo hi : Nat} {sub : Nested}

-- ---------------------------------------------------------------------------
-- Phrases
-- ---------------------------------------------------------------------------

instance nestedPlaces_readPhrase [∀ lo phrase, Keeps text lo (sub phrase)]
    [NestedPlaces text lo hi sub] : NestedPlaces text lo hi (readPhrase sub) where
  assignment := places_readAssignment
  unary := places_readUnary
  operators left strength := places_readOperators left strength
  operand := places_readOperand
  object := places_readObject
  element := places_readElement

/-- However deep phrases nest, their readers place the literals of the expressions they give. -/
instance nestedPlaces_readNested (depth : Nat) : NestedPlaces text lo hi (readNested depth) := by
  induction depth with
  | zero =>
    unfold readNested
    exact ⟨inferInstance, inferInstance, fun _ _ => inferInstance, inferInstance, inferInstance,
      inferInstance⟩
  | succ depth ih =>
    unfold readNested
    infer_instance

variable [∀ lo phrase, Keeps text lo (sub phrase)] [NestedPlaces text lo hi sub]

-- ---------------------------------------------------------------------------
-- Statements
-- ---------------------------------------------------------------------------

instance places_readExpressionStatement (start : Nat) :
    Places text lo hi (readExpressionStatement sub start) := by
  unfold readExpressionStatement
  refine .bind inferInstance (fun e => ?_) fun e hPlaced => ?_
  · dsimp only
    repeat' first
      | infer_instance
      | refine .bind inferInstance fun _ => ?_
      | split
  · obtain ⟨eStart, shape⟩ := e
    cases shape with
    | requireCall path =>
      have : Placed text lo hi (Item.requireCall start path) := ⟨hPlaced.within⟩
      dsimp only
      infer_instance
    | _ =>
      dsimp only
      infer_instance

instance places_readPlainStatement (start : Nat) (declarations : Bool) :
    Places text lo hi (readPlainStatement sub start declarations) := by
  unfold readPlainStatement
  refine .behind fun isEnum => ?_
  split
  · infer_instance
  · refine .behind fun token => ?_
    dsimp only
    split <;> infer_instance

-- ---------------------------------------------------------------------------
-- Imports and exports
-- ---------------------------------------------------------------------------

instance places_readPath : Places text lo hi readPath := by
  unfold readPath
  refine .behind fun _ => places_current_bind fun {found s s' literal} hAhead hHand hRun hEnd => ?_
  split at hRun
  · obtain ⟨rfl, hWithin⟩ := hAhead.within_of_advance hHand hRun hEnd
    exact ⟨fun literal hl => by cases List.mem_singleton.1 hl; exact hWithin⟩
  · exact Places.places hAhead hRun hEnd

instance placed_bareImport (path : Literal) [h : Placed text lo hi path] :
    Placed text lo hi (Item.bareImport path) := ⟨h.within⟩

instance placed_bindingImport (path : Literal) [h : Placed text lo hi path] :
    Placed text lo hi (Item.bindingImport path) := ⟨h.within⟩

instance placed_aliasImport (path : Literal) [h : Placed text lo hi path] :
    Placed text lo hi (Item.aliasImport path) := ⟨h.within⟩

instance places_readSource : Places text lo hi (readSource sub) := by
  unfold readSource
  refine .behind fun _ => .bind inferInstance inferInstance fun path _ => ?_
  infer_instance

instance places_readAlias : Places text lo hi readAlias := by
  have hEnd (item : Item) [Placed text lo hi item] : Places text lo hi
      (pure item >>= fun item => do expectStatementEnd; return item) :=
    .bind inferInstance inferInstance fun item _ => inferInstance
  have hPath : Places text lo hi
      (do
        let path ← readPath
        expectSym ")"
        let item ← pure (Item.aliasImport path)
        expectStatementEnd
        return item) :=
    .bind inferInstance inferInstance fun path _ => inferInstance
  unfold readAlias
  infer_instance

instance places_readImport : Places text lo hi (readImport sub) := by
  have hBare : Places text lo hi
      (do
        let path ← readPath
        readAttributes sub
        let _ ← eatStatementEnd
        return Item.bareImport path) :=
    .bind inferInstance inferInstance fun path _ => inferInstance
  have hBinding (c : Bool → Bool) : Places text lo hi
      (do
        let names ← readImportedNames
        let path ← readSource sub
        return if c names then Item.bindingImport path else Item.bareImport path) :=
    .behind fun names => .bind inferInstance inferInstance fun path _ => inferInstance
  unfold readImport
  refine .behind fun isStatement => ?_
  split
  · infer_instance
  · refine .behind fun _ => .behind fun lexeme? => ?_
    split
    · infer_instance
    · refine .behind fun head => ?_
      split
      · infer_instance
      · exact hBinding fun names => head == .bound || names

instance places_readExport : Places text lo hi (readExport sub) := by
  unfold readExport
  infer_instance

instance places_readItem : Places text lo hi (readItem sub) := by
  unfold readItem
  infer_instance

-- ---------------------------------------------------------------------------
-- Modules
-- ---------------------------------------------------------------------------

/-- An item names one path at most. -/
theorem length_literals_item (item : Item) : (literals item).length ≤ 1 := by
  cases item <;> simp [literals]

/-- The paths of the items that are read one after the other follow one another. -/
theorem readModule_ordered {depth : Nat} {s s' : State} {items : List Item}
    (h : Ahead text lo s) (hRun : readModule depth s = .ok items s') :
    (∀ path ∈ literals items, StringAt text path.start path.stop path.value ∧ lo ≤ path.start) ∧
      (literals items).Pairwise fun l r => l.stop ≤ r.start := by
  have hItems {s : State} (h : Ahead text lo s)
      (hRun : collect (do
        if ← atEnd then return none
        return some (← readItem (readNested depth))) s = .ok items s') :=
    collectWithin_ordered (fun _ => inferInstance) (fun _ _ => inferInstance)
      length_literals_item _ h hRun
  unfold readModule at hRun
  obtain ⟨opens, s₁, hSees, hRest⟩ := ok_of_bind hRun
  have h₁ : Ahead text lo s₁ := Keeps.ok h hSees
  cases opens with
  | false => exact hItems h₁ hRest
  | true =>
    obtain ⟨_, s₂, hAdvance, hCollect⟩ := ok_of_bind hRest
    exact hItems (Keeps.ok h₁ hAdvance) hCollect

end Grammar

/-- **Paths of items.** The literals that the items of a text remember are string tokens of that
text, and they follow one another.

`h` says that the text has been read as a module with these items. Which items these are does not
matter: no reader makes up a literal, and the items are read one after the other. -/
theorem paths_itemsOf {dialect : Dialect} {text : List Char} {items : List Item}
    (h : itemsOf dialect text = .ok items) :
    (∀ path ∈ Grammar.literals items, StringAt text path.start path.stop path.value) ∧
      (Grammar.literals items).Pairwise fun l r => l.stop ≤ r.start := by
  unfold itemsOf at h
  split at h
  · rename_i found s' hRun
    cases h
    obtain ⟨hPaths, hOrdered⟩ :=
      Grammar.readModule_ordered (Grammar.ahead_start dialect text) hRun
    exact ⟨fun path hl => (hPaths path hl).1, hOrdered⟩
  · cases h

end Relocation.TypeScript

import Relocation.TypeScript.Grammar.Classes
import Relocation.TypeScript.Grammar.Markup
import Relocation.TypeScript.Grammar.Modules

/-!
# The grammar of modules

Here the readers of the single phrases are tied together, and a whole text is read as a module.
The result is the list of its items, or the offset of the first fault that the grammar cannot
pass over.

Phrases nest, so the readers call one another. The depth of the calls is bounded by a measure of
the text: between two lexemes only so many phrases can begin.
-/

namespace Relocation.TypeScript

open Grammar

namespace Grammar

/-- Reads a phrase with the given readers for the phrases in it. -/
def readPhrase (sub : Nested) : Nested
  | .assignment => readAssignment sub
  | .unary => readUnary sub
  | .operators left strength => readOperators sub left strength
  | .operand => readOperand sub
  | .trailers callee calls indices => readTrailers sub callee calls indices
  | .object => readObject sub
  | .element => readElement sub
  | .type_ => readType sub
  | .typeOperand => readTypeOperand sub
  | .typeArguments => readTypeArguments sub
  | .typeParameters => readTypeParameters sub
  | .binding => readBinding sub false
  | .parameters => readParameters sub
  | .decorators => readDecorators sub
  | .block => readBlock sub
  | .statement declarations => readStatement sub declarations
  | .moduleBlock => readModuleBlock sub
  | .class_ named => readClass sub named

/-- Reads phrases that nest at most `depth` times. -/
def readNested : (depth : Nat) → Nested
  | 0 => fun _ => fault
  | depth + 1 => readPhrase (readNested depth)

/-- A depth that phrases cannot exceed in the text. -/
def depthBound (text : List Char) : Nat := 16 * (text.length + 4)

/-- Reads a module. -/
def readModule (depth : Nat) : Parse (List Item) := do
  if ← sees .interpreterLine then advance
  collect do
    if ← atEnd then return none
    return some (← readItem (readNested depth))

end Grammar

/-- The items of a module, or the offset of the fault that keeps the text from being one. -/
def itemsOf (dialect : Dialect) (text : List Char) : Except Nat (List Item) :=
  match readModule (depthBound text) (State.start dialect text) with
  | .ok items _ => .ok items
  | .error offset _ => .error offset

end Relocation.TypeScript

/-!
# Relocation rules

A table says where a module path moves to. Paths under the table's scope move into one
destination package; a few paths are renamed by themselves, and a few stay where they are. The
first rule that applies wins: a path outside the scope stays, an exempt path stays, the core path
becomes the bare destination, a renamed path takes its new name, and any other path keeps its
remainder below the destination.

## Results

* `Rules.relocate?_eq_none_iff`: a path stays exactly if it is outside the scope or exempt.
-/

namespace Relocation

/-- A table of relocation rules. -/
structure Rules where
  /-- The prefix of the paths that move, trailing slash included. -/
  scope : String
  /-- The package that absorbs the scope. -/
  destination : String
  /-- The path that becomes the bare destination. -/
  core : String
  /-- Paths with a new name of their own. Of two entries for one path the first counts. -/
  renames : List (String × String)
  /-- Paths that stay although they are in the scope. -/
  exemptions : List String
  deriving Repr, DecidableEq, Inhabited

namespace Rules

/-- The built-in table, which moves the packages under `@aws-cdk/` into `monocdk`. -/
def monocdk : Rules where
  scope := "@aws-cdk/"
  destination := "monocdk"
  core := "@aws-cdk/core"
  renames := [
    ("@aws-cdk/assert", "@monocdk-experiment/assert"),
    ("@aws-cdk/assert/jest", "@monocdk-experiment/assert/jest")]
  exemptions := ["@aws-cdk/cloudformation-diff"]

/-- What follows the scope in the path, if the path is in the scope. -/
def remainder? (rules : Rules) (path : String) : Option String :=
  (rules.scope.toList.isPrefixOf? path.toList).map String.ofList

/-- Whether the path is listed among the exemptions. -/
def isExempt (rules : Rules) (path : String) : Bool := rules.exemptions.contains path

/-- The new name that the table gives to the path by itself. -/
def renamed? (rules : Rules) (path : String) : Option String :=
  (rules.renames.find? fun entry => entry.1 == path).map Prod.snd

/-- Where the path moves to, or nothing if it stays. -/
def relocate? (rules : Rules) (path : String) : Option String :=
  match rules.remainder? path with
  | none => none
  | some remainder =>
    if rules.isExempt path then none
    else if path = rules.core then some rules.destination
    else
      match rules.renamed? path with
      | some name => some name
      | none => some (rules.destination ++ "/" ++ remainder)

/-- A path stays exactly if it is outside the scope or exempt. -/
theorem relocate?_eq_none_iff {rules : Rules} {path : String} :
    rules.relocate? path = none ↔
      rules.remainder? path = none ∨ rules.isExempt path = true := by
  unfold relocate?
  cases rules.remainder? path with
  | none => simp
  | some remainder =>
    by_cases hexempt : rules.isExempt path = true
    · simp [hexempt]
    · simp only [hexempt, reduceCtorEq, or_self, iff_false]
      by_cases hcore : path = rules.core
      · simp [hcore]
      · cases rules.renamed? path <;> simp [hcore]

end Rules

end Relocation

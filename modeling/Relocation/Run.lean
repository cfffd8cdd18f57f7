import Relocation.Expansion
import Relocation.Report
import Relocation.Text.Blank

/-!
# Runs over a file tree

A run goes through patterns one by one, and through the files of each pattern in order. Every file
is relocated by the built-in rules and written back if its text has changed, so that later files
and patterns see it as it is now. A path that has been gone through is not gone through again. The
first failure ends the run; what has been done before it stays. The files are counted on the way,
and so are those whose text has changed.
-/

namespace Relocation

open Text

/-- Why a run ends early. -/
inductive Failure where
  | pattern (fault : ExpansionFault)
  | read (path : Path) (fault : AccessFault)
  deriving Repr, DecidableEq, Inhabited

/-- The text of a failure. -/
def Failure.message : Failure → String
  | pattern fault => fault.message
  | read path fault => s!"failed to read {path.toString}: {fault.message}"

-- ---------------------------------------------------------------------------
-- One file
-- ---------------------------------------------------------------------------

/-- Relocates a file and writes it back if its text has changed, except on a dry run. -/
def FileTree.process (tree : FileTree) (dryRun : Bool) (path : Path) :
    Except Failure (Report × FileTree) :=
  match tree.read path with
  | .error fault => .error (.read path fault)
  | .ok text =>
    let relocated := relocateWith .monocdk text path.toString
    let changed := trim relocated.text.toList != trim text.toList
    let written := changed && !dryRun
    .ok (⟨path.toString, changed, written, relocated.moves⟩,
      if written then tree.write path relocated.text else tree)

-- ---------------------------------------------------------------------------
-- Many files
-- ---------------------------------------------------------------------------

/-- A run on its way. -/
structure Progress where
  tree : FileTree
  /-- The paths that have been gone through, by their components. -/
  seen : List (List Component)
  /-- The reports so far, the latest first. -/
  reports : List Report
  /-- The files that have been counted so far. -/
  summary : Summary

namespace Progress

/-- Before anything has been done. -/
def start (tree : FileTree) : Progress := ⟨tree, [], [], .start⟩

/-- Goes through a path, unless it has been gone through. -/
def visit (dryRun : Bool) (progress : Progress) (path : Path) : Except Failure Progress :=
  if progress.seen.contains path.components then .ok progress
  else
    (progress.tree.process dryRun path).map fun (report, tree) =>
      { tree
        seen := path.components :: progress.seen
        reports := report :: progress.reports
        summary := progress.summary.count report }

end Progress

/-- A run that has ended. -/
structure Outcome where
  tree : FileTree
  /-- The reports, in the order of the files. -/
  reports : List Report
  /-- The files that were counted on the way. -/
  summary : Summary
  /-- Why the run has ended early, if it has. Then the summary is not given out. -/
  failure : Option Failure

/-- The outcome of a run that ends here. -/
def Progress.outcome (progress : Progress) (failure : Option Failure) : Outcome where
  tree := progress.tree
  reports := progress.reports.reverse
  summary := progress.summary
  failure := failure

/-- Goes through paths, up to the first failure. -/
def visitAll (dryRun : Bool) : List Path → Progress → Progress × Option Failure
  | [], progress => (progress, none)
  | path :: paths, progress =>
    match progress.visit dryRun path with
    | .ok next => visitAll dryRun paths next
    | .error failure => (progress, some failure)

/-- Goes through patterns, up to the first failure. -/
def visitPatterns (dryRun : Bool) (root : Path) (unlisted : Unlisted) :
    List (List Char) → Progress → Progress × Option Failure
  | [], progress => (progress, none)
  | pattern :: patterns, progress =>
    match progress.tree.expand root pattern unlisted with
    | .error fault => (progress, some (.pattern fault))
    | .ok paths =>
      match visitAll dryRun paths progress with
      | (next, none) => visitPatterns dryRun root unlisted patterns next
      | ended => ended

/-- Runs over the files below the root that the patterns stand for. -/
def run (tree : FileTree) (root : Path) (patterns : List (List Char)) (dryRun : Bool)
    (unlisted : Unlisted := allListed) : Outcome :=
  let (progress, failure) := visitPatterns dryRun root unlisted patterns (.start tree)
  progress.outcome failure

end Relocation

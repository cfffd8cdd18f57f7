import Relocation.Proofs.Changed
import Relocation.Proofs.Plan

/-!
# Runs that end early

A run ends early when a pattern cannot be expanded or a file cannot be read. By then it has
processed the files that it reports and no others: those that its patterns stand for, in order, in
front of the one that fails. What fails leaves no trace. A file that is written holds the relocated
text from then on, unless a later report has the same file written once more. That can happen: two
paths may lead to one file, and to relocate a text twice is not the same as to relocate it once.

## Results

* `FileTree.processAll_written`: what a file holds that has been written;
* `run_endsEarly`: what a run leaves behind that ends early;
* `not_bytes?_of_written`: a file that is written need not hold what was written.
-/

namespace Relocation

open Text

variable {dryRun : Bool} {tree last : FileTree} {root : Path} {paths : List Path}
  {location : Location} {unlisted : Unlisted} {patterns : List (List Char)} {failure : Failure}

-- ---------------------------------------------------------------------------
-- Files that are written
-- ---------------------------------------------------------------------------

/-- A file that is written holds the relocated text until it is written again. -/
theorem FileTree.processAll_written {before after : List Report} {report : Report}
    (h : tree.processAll dryRun paths = .ok (before ++ report :: after, last))
    (hWritten : report.written = true) :
    ∃ earlier text location,
      tree.processAll dryRun (before.map Report.file) = .ok (before, earlier) ∧
      earlier.read report.file = .ok text ∧ tree.resolve report.file = .ok location ∧
      ((∀ later ∈ after, ¬later.Writes tree location) →
        last.bytes? location = some (relocate text report.path).toUTF8) := by
  rw [← processAll_files h, List.map_append, processAll_append_iff] at h
  obtain ⟨first, earlier, second, hFirst, hSecond, hReports⟩ := h
  have hLength : before.length = first.length := by
    rw [← List.length_map Report.file, ← processAll_files hFirst, List.length_map]
  obtain ⟨rfl, rfl⟩ := List.append_inj hReports hLength
  rw [List.map_cons, processAll_cons_iff] at hSecond
  obtain ⟨report', next, rest, hProcess, hRest, hCons⟩ := hSecond
  obtain ⟨rfl, rfl⟩ := List.cons.inj hCons
  obtain ⟨text, location, hRead, hResolve, hBytes⟩ := process_written hProcess hWritten
  have hEarlier : earlier.outline = tree.outline := processAll_outline hFirst
  refine ⟨earlier, text, location, hFirst, hRead, ?_, fun hLast => ?_⟩
  · rw [← resolve_of_outline hEarlier, hResolve]
  · rw [processAll_bytes? hRest fun later hMem hWrites => hLast later hMem ⟨hWrites.1, ?_⟩, hBytes]
    rw [← resolve_of_outline ((process_outline hProcess).trans hEarlier), hWrites.2]

-- ---------------------------------------------------------------------------
-- Runs that end early
-- ---------------------------------------------------------------------------

/-- What a run leaves behind that ends early. -/
structure EndsEarly (tree : FileTree) (root : Path) (patterns : List (List Char)) (dryRun : Bool)
    (unlisted : Unlisted) (outcome : Outcome) (failure : Failure) : Prop where
  /-- The files that are reported have been processed, and nothing else has been done. -/
  processed : tree.processAll dryRun (outcome.reports.map Report.file)
    = .ok (outcome.reports, outcome.tree)
  /-- They are the files in front of what stops the run. -/
  stops : Stops tree root patterns unlisted (outcome.reports.map Report.file) outcome.tree failure
  outline : outcome.tree.outline = tree.outline
  /-- Files that are not written hold what they held. -/
  kept : ∀ location, (∀ report ∈ outcome.reports, ¬report.Writes tree location) →
    outcome.tree.bytes? location = tree.bytes? location
  /-- A file that is written holds the relocated text of what was read there, unless a later report
  has it written again. -/
  written : ∀ before report after, outcome.reports = before ++ report :: after →
    report.written = true → ∃ earlier text location,
      tree.processAll dryRun (before.map Report.file) = .ok (before, earlier) ∧
      earlier.read report.file = .ok text ∧ tree.resolve report.file = .ok location ∧
      ((∀ later ∈ after, ¬later.Writes tree location) →
        outcome.tree.bytes? location = some (relocate text report.path).toUTF8)

/-- **Runs that end early.** A run that fails has processed the files in front of what stops it,
in order, and has done nothing else: its reports and its tree are those of processing these files,
the outline of the tree is kept, and so is what files hold that no report has written. A file that
is written holds the relocated text of what was read there, unless a later report has it written
once more, which happens where two paths lead to one file.

`hFailure` names the failure: a pattern that cannot be expanded, or a file that cannot be read.
Either of them is told of by `EndsEarly`, with the files in front of it. -/
theorem run_endsEarly (hFailure : (run tree root patterns dryRun unlisted).failure = some failure) :
    EndsEarly tree root patterns dryRun unlisted (run tree root patterns dryRun unlisted)
      failure := by
  obtain ⟨hProcessed, -, -, hStops⟩ := run_cases tree root patterns dryRun unlisted
  refine ⟨hProcessed, hStops failure hFailure, FileTree.processAll_outline hProcessed,
    fun location hKept => FileTree.processAll_bytes? hProcessed hKept, ?_⟩
  intro before report after hReports hWritten
  rw [hReports] at hProcessed
  exact FileTree.processAll_written hProcessed hWritten

-- ---------------------------------------------------------------------------
-- A file with two names
-- ---------------------------------------------------------------------------

/-- A file with the text, and a link to it. -/
def linkedTree (text : String) : FileTree :=
  ⟨.directory (.entry "a.ts".toList (.file text.toUTF8)
    (.entry "b.ts".toList (.link ⟨"a.ts".toList⟩) .none)), []⟩

/-- The file, its link, and a pattern that is no glob. -/
def linkedPatterns : List (List Char) := ["a.ts".toList, "b.ts".toList, "a**".toList]

/-- The working directory. -/
def here : Path := ⟨['.']⟩

section Linked

variable {text text' : String} {path : Path}

/-- Both names lead to the file. -/
theorem resolve_linkedTree (text : String) :
    (linkedTree text).resolve ⟨"./a.ts".toList⟩ = .ok ["a.ts".toList] ∧
      (linkedTree text).resolve ⟨"./b.ts".toList⟩ = .ok ["a.ts".toList] := by
  have hFile (links : Nat) : (linkedTree text).follow links [] ["a.ts".toList]
      = .ok ["a.ts".toList] :=
    (FileTree.follow_file rfl (by decide) rfl).trans FileTree.follow_nil
  constructor
  · rw [FileTree.resolve_of_short (by decide) (by decide) (by decide)]
    exact (FileTree.follow_dot rfl).trans (hFile _)
  · rw [FileTree.resolve_of_short (by decide) (by decide) (by decide)]
    exact ((FileTree.follow_dot rfl).trans (FileTree.follow_link rfl (by decide) rfl)).trans
      (hFile _)

/-- What the patterns stand for. -/
theorem expand_linkedTree (text : String) :
    (linkedTree text).expand here "a.ts".toList = .ok [⟨"./a.ts".toList⟩] ∧
      (linkedTree text).expand here "b.ts".toList = .ok [⟨"./b.ts".toList⟩] ∧
      (linkedTree text).expand here "a**".toList
        = .error (.malformed "a**".toList ⟨0, .starsInSegment⟩) := by
  have hFile {path : Path} (hResolve : (linkedTree text).resolve path = .ok ["a.ts".toList]) :
      (linkedTree text).isFile path = true :=
    FileTree.isFile_of_read (FileTree.read_of_file hResolve rfl)
  obtain ⟨hFirst, hSecond⟩ := resolve_linkedTree text
  exact ⟨FileTree.expand_of_file (by decide) (hFile hFirst) (by cbv),
    FileTree.expand_of_file (by decide) (hFile hSecond) (by cbv),
    FileTree.expand_of_malformed (by decide) (by cbv)⟩

/-- A path that leads to the file has it written if its text changes. -/
theorem process_linkedTree (hResolve : (linkedTree text).resolve path = .ok ["a.ts".toList])
    (hChanges : relocate text path.toString ≠ text) :
    (linkedTree text).process false path
      = .ok (⟨path.toString, true, true, (relocateWith .monocdk text path.toString).moves⟩,
          linkedTree (relocate text path.toString)) := by
  have hRead : (linkedTree text).read path = .ok text := FileTree.read_of_file hResolve rfl
  have hWrite (text' : String) : (linkedTree text).write path text' = linkedTree text' := by
    unfold FileTree.write
    rw [hResolve]
    rfl
  rw [FileTree.process_of_read hRead, processed, bne_iff_ne.2 hChanges]
  simp only [Bool.not_false, Bool.and_self, if_true, hWrite]

/-- The file is written twice before the run ends. -/
theorem run_linkedTree (hOnce : relocate text "./a.ts" = text') (hChanges : text' ≠ text)
    (hAgain : relocate text' "./b.ts" ≠ text') :
    run (linkedTree text) here linkedPatterns false
      = ⟨linkedTree (relocate text' "./b.ts"),
          [⟨"./a.ts", true, true, (relocateWith .monocdk text "./a.ts").moves⟩,
            ⟨"./b.ts", true, true, (relocateWith .monocdk text' "./b.ts").moves⟩],
          ⟨2, 2⟩, some (.pattern (.malformed "a**".toList ⟨0, .starsInSegment⟩))⟩ := by
  subst hOnce
  have hFirst := process_linkedTree (resolve_linkedTree text).1 hChanges
  have hSecond := process_linkedTree (resolve_linkedTree (relocate text "./a.ts")).2 hAgain
  have hSameA : (Path.mk "./a.ts".toList).toString = "./a.ts" := rfl
  have hSameB : (Path.mk "./b.ts".toList).toString = "./b.ts" := rfl
  rw [hSameA] at hFirst
  rw [hSameB] at hSecond
  have hNew : ([(Path.mk "./a.ts".toList).components].contains
      (Path.mk "./b.ts".toList).components) = false := by decide
  obtain ⟨hA, -, -⟩ := expand_linkedTree text
  obtain ⟨-, hB, -⟩ := expand_linkedTree (relocate text "./a.ts")
  obtain ⟨-, -, hC⟩ := expand_linkedTree (relocate (relocate text "./a.ts") "./b.ts")
  simp only [run, linkedPatterns, visitPatterns, Progress.start, visitAll, Progress.visit,
    List.contains_nil, Bool.false_eq_true, if_false, Except.map, hA, hFirst, hB, hNew, hSecond, hC]
  rfl

end Linked

/-- The text with a call behind a quote of its own changes twice. -/
theorem relocate_escapedCall :
    ∃ once, relocate escapedCall "./a.ts" = once ∧ once ≠ escapedCall ∧
      relocate once "./b.ts" ≠ once := by
  refine ⟨"import 'monocdk/';require(\"@aws-cdk/core\")//'", ?_, by decide, ?_⟩
  · rw [relocate_eq_foldl]
    decide +kernel
  · rw [relocate_eq_foldl]
    decide +kernel

/-- The run over the file and its link ends early. -/
theorem endsEarly_linkedTree :
    ∃ failure, (run (linkedTree escapedCall) here linkedPatterns false).failure = some failure ∧
      EndsEarly (linkedTree escapedCall) here linkedPatterns false allListed
        (run (linkedTree escapedCall) here linkedPatterns false) failure := by
  obtain ⟨once, hOnce, hChanges, hAgain⟩ := relocate_escapedCall
  have hFailure := congrArg Outcome.failure (run_linkedTree hOnce hChanges hAgain)
  exact ⟨_, hFailure, run_endsEarly hFailure⟩

/-- Not every file that is written holds, when the run ends, the relocated text of what was read
there: a file and a link to it are processed one after the other, and what is read the second
time has been relocated already. -/
theorem not_bytes?_of_written :
    ¬∀ (tree : FileTree) (root : Path) (patterns : List (List Char)) (dryRun : Bool)
      (unlisted : Unlisted) (failure : Failure),
      (run tree root patterns dryRun unlisted).failure = some failure →
        EndsEarly tree root patterns dryRun unlisted (run tree root patterns dryRun unlisted)
            failure ∧
          ∀ before report after,
            (run tree root patterns dryRun unlisted).reports = before ++ report :: after →
            report.written = true → ∃ earlier text location,
              tree.processAll dryRun (before.map Report.file) = .ok (before, earlier) ∧
              earlier.read report.file = .ok text ∧ tree.resolve report.file = .ok location ∧
              (run tree root patterns dryRun unlisted).tree.bytes? location
                = some (relocate text report.path).toUTF8 := by
  intro h
  obtain ⟨once, hOnce, hChanges, hAgain⟩ := relocate_escapedCall
  have hRun := run_linkedTree hOnce hChanges hAgain
  obtain ⟨-, hHolds⟩ := h _ _ _ _ _ _ (congrArg Outcome.failure hRun)
  obtain ⟨earlier, text, location, hProcessed, hRead, hResolve, hBytes⟩ :=
    hHolds [] _ _ (congrArg Outcome.reports hRun) rfl
  obtain ⟨-, rfl⟩ := Prod.mk.inj (Except.ok.inj hProcessed)
  obtain rfl : location = ["a.ts".toList] :=
    Except.ok.inj (hResolve.symm.trans (resolve_linkedTree escapedCall).1)
  obtain rfl : text = escapedCall := by
    refine Except.ok.inj (hRead.symm.trans ?_)
    exact FileTree.read_of_file (resolve_linkedTree escapedCall).1 rfl
  -- the second report has it written again
  rw [hRun] at hBytes
  have hSame : (relocate once "./b.ts").toUTF8 = once.toUTF8 :=
    (Option.some.inj hBytes).trans (congrArg String.toUTF8 hOnce)
  exact hAgain (String.toByteArray_inj.1 hSame)

end Relocation

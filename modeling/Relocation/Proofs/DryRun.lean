import Relocation.Proofs.Apart

/-!
# Dry runs

A dry run reports what a run would do and writes nothing. That it tells the truth is not plain: a
run writes files while it still expands patterns and reads other files, and a dry run goes through
a tree that stays as it is. But patterns stand for the same files as long as the outline of the tree
is kept, and a file reads alike as long as nothing has been written to it. So if no two paths lead
to one file, both go through the same paths and read the same texts up to the same end.

## Results

* `Mirrors`: what a dry run and a run have in common on their way;
* `Mirrors.step`, `Mirrors.visit`, `Mirrors.visitAll`, `Mirrors.visitPatterns`: they keep it in
  common;
* `run_dryRun`: a dry run reports what a run does.
-/

namespace Relocation

open Text

/-- The report of a file whose text is left as it is. -/
def Report.unwritten (report : Report) : Report := { report with written := false }

/-- One of the patterns stands for the path. -/
def FileTree.Names (tree : FileTree) (root : Path) (patterns : List (List Char))
    (unlisted : Unlisted) (path : Path) : Prop :=
  ∃ pattern ∈ patterns, ∃ paths, tree.expand root pattern unlisted = .ok paths ∧ path ∈ paths

variable {tree other next : FileTree} {named : Path → Prop} {path root : Path}
  {paths : List Path} {report : Report} {dry real : Progress} {patterns : List (List Char)}
  {unlisted : Unlisted}

-- ---------------------------------------------------------------------------
-- One file
-- ---------------------------------------------------------------------------

/-- A file that reads alike is reported alike, but for the writing. -/
theorem FileTree.process_dryRun (hRead : other.read path = tree.read path) :
    (∃ report next, other.process false path = .ok (report, next) ∧
        tree.process true path = .ok (report.unwritten, tree) ∧
        report.written = report.changed) ∨
      ∃ failure, other.process false path = .error failure ∧
        tree.process true path = .error failure := by
  unfold process
  rw [hRead]
  cases tree.read path with
  | error fault => exact .inr ⟨.read path fault, rfl, rfl⟩
  | ok text =>
    refine .inl ⟨_, _, rfl, ?_, ?_⟩
    · simp only [Report.unwritten, Bool.not_true, Bool.and_false, Bool.false_eq_true, if_false]
    · simp only [Bool.not_false, Bool.and_true]

-- ---------------------------------------------------------------------------
-- Runs on their way
-- ---------------------------------------------------------------------------

/-- A dry run and a run from the same tree have gone through the same paths. The tree of the run is
changed at the files of its reports and nowhere else. -/
structure Mirrors (tree : FileTree) (named : Path → Prop) (dry real : Progress) : Prop where
  kept : dry.tree = tree
  outline : real.tree.outline = tree.outline
  bytes : ∀ location, (∀ report ∈ real.reports, tree.resolve report.file ≠ .ok location) →
    real.tree.bytes? location = tree.bytes? location
  seen : dry.seen = real.seen
  gone : real.seen = real.reports.map fun report => report.file.components
  files : ∀ report ∈ real.reports, named report.file
  reports : dry.reports = real.reports.map Report.unwritten
  summary : dry.summary = real.summary
  written : ∀ report ∈ real.reports, report.written = report.changed

namespace Mirrors

theorem start (tree : FileTree) (named : Path → Prop) :
    Mirrors tree named (.start tree) (.start tree) where
  kept := rfl
  outline := rfl
  bytes _ _ := rfl
  seen := rfl
  gone := rfl
  files _ hMem := absurd hMem List.not_mem_nil
  reports := rfl
  summary := rfl
  written _ hMem := absurd hMem List.not_mem_nil

/-- A path that has not been gone through leads to a file that has not been written. -/
theorem read_eq (h : Mirrors tree named dry real) (hApart : LeadApart tree named)
    (hNamed : named path) (hNew : real.seen.contains path.components = false) :
    real.tree.read path = tree.read path := by
  refine FileTree.read_of_outline h.outline ?_
  intro location hResolve
  refine h.bytes location ?_
  intro report hMem hOther
  have hSame : report.file.components = path.components :=
    hApart _ _ location (h.files report hMem) hNamed hOther hResolve
  have hSeen : path.components ∈ real.seen := by
    rw [h.gone, ← hSame]
    exact List.mem_map_of_mem hMem
  rw [List.contains_iff_mem.2 hSeen] at hNew
  contradiction

/-- A file that the run has processed goes on both lists. -/
theorem step (h : Mirrors tree named dry real) (hNamed : named path)
    (hReal : real.tree.process false path = .ok (report, next))
    (hWritten : report.written = report.changed) :
    Mirrors tree named
      ⟨tree, path.components :: real.seen, report.unwritten :: dry.reports,
        dry.summary.count report.unwritten⟩
      ⟨next, path.components :: real.seen, report :: real.reports, real.summary.count report⟩ := by
  obtain ⟨-, -, hPath, -⟩ := FileTree.process_cases hReal
  have hFile : report.file = path := by rw [Report.file, hPath, Path.ofString_toString]
  constructor
  case kept => rfl
  case outline => exact (FileTree.process_outline hReal).trans h.outline
  case bytes =>
    intro location hElsewhere
    have hHere : real.tree.resolve path ≠ .ok location := by
      rw [FileTree.resolve_of_outline h.outline, ← hFile]
      exact hElsewhere report List.mem_cons_self
    calc next.bytes? location
        = real.tree.bytes? location := FileTree.process_bytes? hReal fun _ => hHere
      _ = tree.bytes? location :=
          h.bytes location fun earlier hMem => hElsewhere earlier (List.mem_cons_of_mem _ hMem)
  case seen => rfl
  case gone => rw [List.map_cons, hFile, h.gone]
  case files =>
    intro earlier hMem
    rcases List.mem_cons.1 hMem with rfl | hMem
    · rwa [hFile]
    · exact h.files earlier hMem
  case reports => rw [List.map_cons, h.reports]
  case summary =>
    -- whether a file has been written does not count
    rw [h.summary]
    rfl
  case written =>
    intro earlier hMem
    rcases List.mem_cons.1 hMem with rfl | hMem
    · exact hWritten
    · exact h.written earlier hMem

/-- Both go through a path alike, or fail at it alike. -/
theorem visit (h : Mirrors tree named dry real) (hApart : LeadApart tree named)
    (hNamed : named path) :
    (∃ dry' real', dry.visit true path = .ok dry' ∧ real.visit false path = .ok real' ∧
        Mirrors tree named dry' real') ∨
      ∃ failure, dry.visit true path = .error failure ∧
        real.visit false path = .error failure := by
  unfold Progress.visit
  rw [h.seen, h.kept]
  cases hSeen : real.seen.contains path.components with
  | true => exact .inl ⟨dry, real, rfl, rfl, h⟩
  | false =>
    rcases FileTree.process_dryRun (h.read_eq hApart hNamed hSeen) with
      ⟨report, next, hReal, hDry, hWritten⟩ | ⟨failure, hReal, hDry⟩
    · rw [hReal, hDry]
      exact .inl ⟨_, _, rfl, rfl, h.step hNamed hReal hWritten⟩
    · rw [hReal, hDry]
      exact .inr ⟨failure, rfl, rfl⟩

/-- Both go through paths up to the same end. -/
theorem visitAll (h : Mirrors tree named dry real) (hApart : LeadApart tree named)
    (hNamed : ∀ path ∈ paths, named path) :
    ∃ dry' real' failure, Relocation.visitAll true paths dry = (dry', failure) ∧
      Relocation.visitAll false paths real = (real', failure) ∧ Mirrors tree named dry' real' := by
  induction paths generalizing dry real with
  | nil => exact ⟨dry, real, none, rfl, rfl, h⟩
  | cons path paths ih =>
    unfold Relocation.visitAll
    rcases h.visit hApart (hNamed path List.mem_cons_self) with
      ⟨dry', real', hDry, hReal, hNext⟩ | ⟨failure, hDry, hReal⟩
    · rw [hDry, hReal]
      exact ih hNext fun path hMem => hNamed path (List.mem_cons_of_mem _ hMem)
    · rw [hDry, hReal]
      exact ⟨dry, real, some failure, rfl, rfl, h⟩

/-- Both go through patterns up to the same end, since patterns stand for the same files all the
while. -/
theorem visitPatterns (h : Mirrors tree named dry real) (hApart : LeadApart tree named)
    (hNamed : ∀ path, tree.Names root patterns unlisted path → named path) :
    ∃ dry' real' failure,
      Relocation.visitPatterns true root unlisted patterns dry = (dry', failure) ∧
      Relocation.visitPatterns false root unlisted patterns real = (real', failure) ∧
      Mirrors tree named dry' real' := by
  induction patterns generalizing dry real with
  | nil => exact ⟨dry, real, none, rfl, rfl, h⟩
  | cons pattern patterns ih =>
    unfold Relocation.visitPatterns
    rw [h.kept, FileTree.expand_of_outline h.outline]
    cases hExpand : tree.expand root pattern unlisted with
    | error fault => exact ⟨dry, real, some (.pattern fault), rfl, rfl, h⟩
    | ok paths =>
      have hHere : ∀ path ∈ paths, named path := by
        intro path hMem
        exact hNamed path ⟨pattern, List.mem_cons_self, paths, hExpand, hMem⟩
      have hLater : ∀ path, tree.Names root patterns unlisted path → named path := by
        rintro path ⟨pattern', hPattern, hPaths⟩
        exact hNamed path ⟨pattern', List.mem_cons_of_mem _ hPattern, hPaths⟩
      obtain ⟨dry', real', failure, hDry, hReal, hNext⟩ := h.visitAll hApart hHere
      dsimp only
      rw [hDry, hReal]
      cases failure with
      | none => exact ih hNext hLater
      | some failure => exact ⟨dry', real', some failure, rfl, rfl, hNext⟩

end Mirrors

/-- **Dry runs.** A dry run leaves the tree as it is and foretells the run: it gives the same
reports, except that nothing is written, in the same order, the same counts, and the same end. In
the run itself just those files are written that have changed.

`hApart` says that of the paths that the patterns stand for no two lead to one file, other than by
the same components. Where two do, the run reads at the second path what it has written at the
first, and the dry run does not. -/
theorem run_dryRun (hApart : LeadApart tree (tree.Names root patterns unlisted)) :
    let dry := run tree root patterns true unlisted
    let real := run tree root patterns false unlisted
    dry.reports = real.reports.map Report.unwritten ∧
      (∀ report ∈ real.reports, report.written = report.changed) ∧
      dry.failure = real.failure ∧
      dry.summary = real.summary ∧
      dry.tree = tree := by
  intro dry real
  obtain ⟨dry', real', failure, hDry, hReal, h⟩ :=
    (Mirrors.start tree _).visitPatterns hApart fun _ hNames => hNames
  have hDryOutcome : dry = dry'.outcome failure := by simp only [dry, run, hDry]
  have hRealOutcome : real = real'.outcome failure := by simp only [real, run, hReal]
  have hReports : dry.reports = real.reports.map Report.unwritten := by
    rw [hDryOutcome, hRealOutcome, Progress.outcome, Progress.outcome, h.reports,
      List.map_reverse]
  refine ⟨hReports, ?_, ?_, ?_, ?_⟩
  · intro report hMem
    rw [hRealOutcome] at hMem
    exact h.written report (List.mem_reverse.1 hMem)
  · rw [hDryOutcome, hRealOutcome]
    rfl
  · rw [hDryOutcome, hRealOutcome]
    exact h.summary
  · rw [hDryOutcome]
    exact h.kept

-- ---------------------------------------------------------------------------
-- Two files
-- ---------------------------------------------------------------------------

/-- Two files with the texts. -/
def pairTree (text text' : String) : FileTree :=
  ⟨.directory (.entry "a.ts".toList (.file text.toUTF8)
    (.entry "b.ts".toList (.file text'.toUTF8) .none)), []⟩

/-- Both files, one of them twice, and a pattern that is no glob. -/
def pairPatterns : List (List Char) :=
  ["a.ts".toList, "b.ts".toList, "a.ts".toList, "a**".toList]

section Pair

variable (text text' : String)

/-- Where the files are. -/
theorem resolve_pairTree :
    (pairTree text text').resolve ⟨"./a.ts".toList⟩ = .ok ["a.ts".toList] ∧
      (pairTree text text').resolve ⟨"./b.ts".toList⟩ = .ok ["b.ts".toList] := by
  constructor
  · rw [FileTree.resolve_of_short (by decide) (by decide) (by decide)]
    exact ((FileTree.follow_dot rfl).trans (FileTree.follow_file rfl (by decide) rfl)).trans
      FileTree.follow_nil
  · rw [FileTree.resolve_of_short (by decide) (by decide) (by decide)]
    exact ((FileTree.follow_dot rfl).trans (FileTree.follow_file rfl (by decide) rfl)).trans
      FileTree.follow_nil

/-- The patterns name each file by one path. -/
theorem names_pairTree (h : (pairTree text text').Names here pairPatterns allListed path) :
    path = ⟨"./a.ts".toList⟩ ∨ path = ⟨"./b.ts".toList⟩ := by
  obtain ⟨hFirst, hSecond⟩ := resolve_pairTree text text'
  have hExpand : (pairTree text text').expand here "a.ts".toList allListed
      = .ok [⟨"./a.ts".toList⟩] :=
    FileTree.expand_of_file (by decide)
      (FileTree.isFile_of_read (FileTree.read_of_file hFirst rfl)) (by cbv)
  have hExpand' : (pairTree text text').expand here "b.ts".toList allListed
      = .ok [⟨"./b.ts".toList⟩] :=
    FileTree.expand_of_file (by decide)
      (FileTree.isFile_of_read (FileTree.read_of_file hSecond rfl)) (by cbv)
  obtain ⟨pattern, hPattern, paths, hPaths, hMem⟩ := h
  simp only [pairPatterns, List.mem_cons, List.not_mem_nil, or_false] at hPattern
  rcases hPattern with rfl | rfl | rfl | rfl
  · obtain rfl := Except.ok.inj (hExpand.symm.trans hPaths)
    exact .inl (List.mem_singleton.1 hMem)
  · obtain rfl := Except.ok.inj (hExpand'.symm.trans hPaths)
    exact .inr (List.mem_singleton.1 hMem)
  · obtain rfl := Except.ok.inj (hExpand.symm.trans hPaths)
    exact .inl (List.mem_singleton.1 hMem)
  · rw [FileTree.expand_of_malformed (by decide) (by cbv)] at hPaths
    contradiction

/-- No file is named by two paths. -/
theorem leadApart_pairTree :
    LeadApart (pairTree text text') ((pairTree text text').Names here pairPatterns allListed) := by
  intro path other location hPath hOther hResolve hResolve'
  obtain ⟨hFirst, hSecond⟩ := resolve_pairTree text text'
  rcases names_pairTree text text' hPath with rfl | rfl <;>
    rcases names_pairTree text text' hOther with rfl | rfl
  case inl.inl | inr.inr => rfl
  case inl.inr =>
    have hSame := (hFirst.symm.trans hResolve).trans (hResolve'.symm.trans hSecond)
    exact absurd hSame (by decide)
  case inr.inl =>
    have hSame := (hFirst.symm.trans hResolve').trans (hResolve.symm.trans hSecond)
    exact absurd hSame (by decide)

end Pair

/-- A dry run over the two files reports what a run does. -/
theorem dryRun_pairTree :
    let tree := pairTree "import '@aws-cdk/core';\n" ""
    let dry := run tree here pairPatterns true
    let real := run tree here pairPatterns false
    LeadApart tree (tree.Names here pairPatterns allListed) ∧
      dry.reports = real.reports.map Report.unwritten ∧ dry.failure = real.failure ∧
      dry.tree = tree := by
  intro tree dry real
  have hApart := leadApart_pairTree "import '@aws-cdk/core';\n" ""
  obtain ⟨hReports, -, hFailure, -, hTree⟩ := run_dryRun hApart
  exact ⟨hApart, hReports, hFailure, hTree⟩

end Relocation

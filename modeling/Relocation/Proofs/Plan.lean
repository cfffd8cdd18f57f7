import Relocation.Proofs.Outline

/-!
# Runs and their plans

A run expands a pattern only after it has processed the files of the patterns in front of it, and
it keeps in mind which paths it has gone through. But processing keeps the outline of the tree, and
patterns are expanded by the outline. So a run does what a plan says that is made beforehand: all
patterns are expanded in the tree as it is at the start, each path is kept where it comes first, and
the files are processed one after the other. The run comes to its end if and only if the plan can be
made and carried out. On the way it counts the files and those that change, and as every count goes
with a report, the counters and the list of reports tell the same.

## Results

* `FileTree.plan`, `FileTree.processAll`: the plan of a run, and how it is carried out;
* `FileTree.pairwise_plan`: no path comes twice in a plan;
* `Summary.foldl_count`: the counters count the reports, whatever they start from;
* `visitPatterns_advances`, `visitPatterns_fails`: what a run has done when it ends;
* `run_eq_plan`: a run carries out its plan, and its counters tell of its reports.
-/

namespace Relocation

open Text

-- ---------------------------------------------------------------------------
-- Plans
-- ---------------------------------------------------------------------------

/-- The paths without those that come again, written in the same way or another. -/
def firstOccurrences (paths : List Path) : List Path :=
  paths.eraseDupsBy fun path other => path.components == other.components

/-- The files below the root that the patterns stand for, pattern by pattern. -/
def FileTree.expandAll (tree : FileTree) (root : Path) (patterns : List (List Char))
    (unlisted : Unlisted) : Except ExpansionFault (List (List Path)) :=
  patterns.mapM fun pattern => tree.expand root pattern unlisted

/-- The files that a run goes through, as far as that can be told beforehand. -/
def FileTree.plan (tree : FileTree) (root : Path) (patterns : List (List Char))
    (unlisted : Unlisted) : Except ExpansionFault (List Path) :=
  (tree.expandAll root patterns unlisted).map fun found => firstOccurrences found.flatten

/-- Processes the files one after the other. -/
def FileTree.processAll (dryRun : Bool) :
    FileTree → List Path → Except Failure (List Report × FileTree)
  | tree, [] => .ok ([], tree)
  | tree, path :: paths => do
    let (report, next) ← tree.process dryRun path
    let (reports, last) ← next.processAll dryRun paths
    return (report :: reports, last)

variable {dryRun : Bool} {tree next last : FileTree} {root path : Path} {paths : List Path}
  {reports : List Report} {location : Location} {unlisted : Unlisted}
  {patterns : List (List Char)}

theorem bind_eq_ok_iff {Error Value Result : Type} {x : Except Error Value}
    {f : Value → Except Error Result} {result : Result} :
    x >>= f = .ok result ↔ ∃ value, x = .ok value ∧ f value = .ok result := by
  cases x with
  | error fault => simp [bind, Except.bind]
  | ok value => simp [bind, Except.bind]

theorem map_eq_ok_iff {Error Value Result : Type} {x : Except Error Value} {f : Value → Result}
    {result : Result} : f <$> x = .ok result ↔ ∃ value, x = .ok value ∧ f value = result := by
  cases x with
  | error fault => simp [Functor.map, Except.map]
  | ok value => simp [Functor.map, Except.map]

-- ---------------------------------------------------------------------------
-- Files one after the other
-- ---------------------------------------------------------------------------

namespace FileTree

theorem processAll_cons_iff :
    tree.processAll dryRun (path :: paths) = .ok (reports, last) ↔
      ∃ report next rest, tree.process dryRun path = .ok (report, next) ∧
        next.processAll dryRun paths = .ok (rest, last) ∧ reports = report :: rest := by
  rw [processAll, bind_eq_ok_iff]
  constructor
  · rintro ⟨⟨report, next⟩, hProcess, hRest⟩
    obtain ⟨⟨rest, last'⟩, hAll, hEnd⟩ := bind_eq_ok_iff.1 hRest
    obtain ⟨rfl, rfl⟩ := Prod.mk.inj (Except.ok.inj hEnd)
    exact ⟨report, next, rest, hProcess, hAll, rfl⟩
  · rintro ⟨report, next, rest, hProcess, hAll, rfl⟩
    exact ⟨(report, next), hProcess, bind_eq_ok_iff.2 ⟨(rest, last), hAll, rfl⟩⟩

/-- Files in two rows are processed row by row. -/
theorem processAll_append_iff {front behind : List Path} :
    tree.processAll dryRun (front ++ behind) = .ok (reports, last) ↔
      ∃ first next second, tree.processAll dryRun front = .ok (first, next) ∧
        next.processAll dryRun behind = .ok (second, last) ∧ reports = first ++ second := by
  induction front generalizing tree reports with
  | nil =>
    constructor
    · exact fun h => ⟨[], tree, reports, rfl, h, rfl⟩
    · rintro ⟨first, next, second, hFirst, hSecond, rfl⟩
      obtain ⟨rfl, rfl⟩ := Prod.mk.inj (Except.ok.inj hFirst)
      exact hSecond
  | cons path front ih =>
    rw [List.cons_append, processAll_cons_iff]
    constructor
    · rintro ⟨report, between, rest, hProcess, hRest, rfl⟩
      obtain ⟨first, next, second, hFirst, hSecond, rfl⟩ := ih.1 hRest
      exact ⟨report :: first, next, second,
        processAll_cons_iff.2 ⟨report, between, first, hProcess, hFirst, rfl⟩, hSecond, rfl⟩
    · rintro ⟨first, next, second, hFirst, hSecond, rfl⟩
      obtain ⟨report, between, rest, hProcess, hRest, rfl⟩ := processAll_cons_iff.1 hFirst
      exact ⟨report, between, rest ++ second, hProcess,
        ih.2 ⟨rest, next, second, hRest, hSecond, rfl⟩, rfl⟩

/-- Only files are processed. -/
theorem processAll_isFile (h : tree.processAll dryRun paths = .ok (reports, last)) :
    ∀ path ∈ paths, tree.isFile path = true := by
  induction paths generalizing tree reports with
  | nil => exact fun _ hMem => absurd hMem List.not_mem_nil
  | cons path paths ih =>
    obtain ⟨report, next, rest, hProcess, hRest, rfl⟩ := processAll_cons_iff.1 h
    obtain ⟨text, hRead, -⟩ := process_cases hProcess
    intro other hMem
    rcases List.mem_cons.1 hMem with rfl | hLater
    · exact isFile_of_read hRead
    · rw [← isFile_of_outline (process_outline hProcess)]
      exact ih hRest other hLater

/-- Every file has its report. -/
theorem processAll_paths (h : tree.processAll dryRun paths = .ok (reports, last)) :
    reports.map Report.path = paths.map Path.toString := by
  induction paths generalizing tree reports with
  | nil =>
    obtain ⟨rfl, -⟩ := Prod.mk.inj (Except.ok.inj h)
    rfl
  | cons path paths ih =>
    obtain ⟨report, next, rest, hProcess, hRest, rfl⟩ := processAll_cons_iff.1 h
    obtain ⟨-, -, hPath, -⟩ := process_cases hProcess
    rw [List.map_cons, List.map_cons, hPath, ih hRest]

/-- Processing files keeps the outline. -/
theorem processAll_outline (h : tree.processAll dryRun paths = .ok (reports, last)) :
    last.outline = tree.outline := by
  induction paths generalizing tree reports with
  | nil =>
    obtain ⟨-, rfl⟩ := Prod.mk.inj (Except.ok.inj h)
    rfl
  | cons path paths ih =>
    obtain ⟨report, next, rest, hProcess, hRest, rfl⟩ := processAll_cons_iff.1 h
    rw [ih hRest, process_outline hProcess]

end FileTree

/-- The path that a report tells of. -/
def Report.file (report : Report) : Path := .ofString report.path

/-- The report tells of the file at the location and has it written. -/
def Report.Writes (report : Report) (tree : FileTree) (location : Location) : Prop :=
  report.written = true ∧ tree.resolve report.file = .ok location

/-- The reports tell of the files that have been processed. -/
theorem FileTree.processAll_files (h : tree.processAll dryRun paths = .ok (reports, last)) :
    reports.map Report.file = paths := by
  calc reports.map Report.file
      = (reports.map Report.path).map Path.ofString := by rw [List.map_map]; rfl
    _ = (paths.map Path.toString).map Path.ofString := by rw [processAll_paths h]
    _ = paths := by
        rw [List.map_map]
        exact List.map_id'' Path.ofString_toString paths

/-- Processing files changes none but those that are written. -/
theorem FileTree.processAll_bytes? (h : tree.processAll dryRun paths = .ok (reports, last))
    (hNone : ∀ report ∈ reports, ¬report.Writes tree location) :
    last.bytes? location = tree.bytes? location := by
  induction paths generalizing tree reports with
  | nil =>
    obtain ⟨-, rfl⟩ := Prod.mk.inj (Except.ok.inj h)
    rfl
  | cons path paths ih =>
    obtain ⟨report, next, rest, hProcess, hRest, rfl⟩ := processAll_cons_iff.1 h
    obtain ⟨-, -, hPath, -⟩ := process_cases hProcess
    have hFile : report.file = path := by rw [Report.file, hPath, Path.ofString_toString]
    rw [ih hRest fun report hMem hWrites => ?_]
    · exact process_bytes? hProcess fun hWritten hResolve =>
        hNone report List.mem_cons_self ⟨hWritten, hFile.symm ▸ hResolve⟩
    · refine hNone report (List.mem_cons_of_mem _ hMem) ⟨hWrites.1, ?_⟩
      rw [← resolve_of_outline (process_outline hProcess), hWrites.2]

-- ---------------------------------------------------------------------------
-- Paths that have been gone through
-- ---------------------------------------------------------------------------

/-- The paths that are still to be gone through when some have been. -/
def unseen (seen : List (List Component)) (paths : List Path) : List Path :=
  firstOccurrences (paths.filter fun path => !seen.contains path.components)

variable {seen : List (List Component)}

theorem unseen_nil (paths : List Path) : unseen [] paths = firstOccurrences paths := by
  rw [unseen, List.filter_eq_self.2]
  exact fun _ _ => rfl

theorem unseen_cons_of_seen (h : seen.contains path.components = true) :
    unseen seen (path :: paths) = unseen seen paths := by
  rw [unseen, List.filter_cons_of_neg (by simpa using h), unseen]

theorem unseen_cons_of_not_seen (h : seen.contains path.components = false) :
    unseen seen (path :: paths) = path :: unseen (path.components :: seen) paths := by
  rw [unseen, List.filter_cons_of_pos (by simpa using h), firstOccurrences, List.eraseDupsBy_cons,
    List.filter_filter, unseen, firstOccurrences]
  congr 2
  refine List.filter_congr fun other _ => ?_
  rw [Bool.eq_iff_iff]
  simp

/-- Of paths in two rows, the second row is gone through without what comes in the first. -/
theorem unseen_append (front behind : List Path) :
    unseen seen (front ++ behind) = unseen seen front
      ++ unseen (((unseen seen front).map Path.components).reverse ++ seen) behind := by
  induction front generalizing seen with
  | nil => rfl
  | cons path front ih =>
    rw [List.cons_append]
    cases hSeen : seen.contains path.components with
    | true => rw [unseen_cons_of_seen hSeen, unseen_cons_of_seen hSeen, ih]
    | false =>
      rw [unseen_cons_of_not_seen hSeen, unseen_cons_of_not_seen hSeen, ih]
      simp only [List.map_cons, List.reverse_cons, List.append_assoc, List.cons_append,
        List.nil_append]

theorem mem_of_mem_unseen (h : path ∈ unseen seen paths) : path ∈ paths := by
  induction paths generalizing seen with
  | nil => exact absurd h List.not_mem_nil
  | cons first paths ih =>
    cases hSeen : seen.contains first.components with
    | true => exact List.mem_cons_of_mem _ (ih (unseen_cons_of_seen hSeen ▸ h))
    | false =>
      rw [unseen_cons_of_not_seen hSeen] at h
      rcases List.mem_cons.1 h with rfl | hRest
      · exact List.mem_cons_self
      · exact List.mem_cons_of_mem _ (ih hRest)

theorem components_notMem_of_mem_unseen {other : Path} (h : other ∈ unseen seen paths) :
    other.components ∉ seen := by
  induction paths generalizing seen with
  | nil => exact absurd h List.not_mem_nil
  | cons path paths ih =>
    cases hSeen : seen.contains path.components with
    | true => exact ih (unseen_cons_of_seen hSeen ▸ h)
    | false =>
      rw [unseen_cons_of_not_seen hSeen] at h
      rcases List.mem_cons.1 h with rfl | hRest
      · rw [← List.contains_iff_mem, hSeen]
        decide
      · exact fun hMem => ih hRest (List.mem_cons_of_mem _ hMem)

/-- No path is gone through twice. -/
theorem pairwise_unseen (seen : List (List Component)) (paths : List Path) :
    (unseen seen paths).Pairwise fun path other => path.components ≠ other.components := by
  induction paths generalizing seen with
  | nil => exact .nil
  | cons path paths ih =>
    cases hSeen : seen.contains path.components with
    | true =>
      rw [unseen_cons_of_seen hSeen]
      exact ih seen
    | false =>
      rw [unseen_cons_of_not_seen hSeen]
      refine .cons (fun other hMem hSame => ?_) (ih _)
      exact components_notMem_of_mem_unseen hMem (hSame ▸ List.mem_cons_self)

-- ---------------------------------------------------------------------------
-- Counting
-- ---------------------------------------------------------------------------

/-- Counting report by report adds their number, and the number of those that tell of a change. -/
theorem Summary.foldl_count (reports : List Report) (summary : Summary) :
    reports.foldl count summary
      = ⟨summary.files + reports.length, summary.changed + reports.countP Report.changed⟩ := by
  induction reports generalizing summary with
  | nil => rfl
  | cons report reports ih =>
    rw [List.foldl_cons, ih, List.length_cons, List.countP_cons, Summary.mk.injEq]
    constructor
    · show summary.files + 1 + reports.length = summary.files + (reports.length + 1)
      omega
    · unfold count
      dsimp only
      split <;> omega

/-- What has been counted from the start on is the summary of the reports. -/
theorem Summary.foldl_count_start (reports : List Report) :
    reports.foldl count start = ofReports reports := by
  rw [foldl_count, start, Nat.zero_add, Nat.zero_add, ofReports]

-- ---------------------------------------------------------------------------
-- Runs on their way
-- ---------------------------------------------------------------------------

/-- From one point of a run to a later one, the files have been processed, and nothing else has been
done. -/
structure Advances (dryRun : Bool) (before after : Progress) (files : List Path) : Prop where
  processed : ∃ reports, before.tree.processAll dryRun files = .ok (reports, after.tree) ∧
    after.reports = reports.reverse ++ before.reports ∧
    after.summary = reports.foldl Summary.count before.summary
  seen : after.seen = (files.map Path.components).reverse ++ before.seen

namespace Advances

variable {before between after : Progress} {front behind : List Path}

theorem refl (progress : Progress) : Advances dryRun progress progress [] :=
  ⟨⟨[], rfl, rfl, rfl⟩, rfl⟩

theorem trans (h : Advances dryRun before between front)
    (h' : Advances dryRun between after behind) :
    Advances dryRun before after (front ++ behind) := by
  obtain ⟨⟨first, hFirst, hReports, hSummary⟩, hSeen⟩ := h
  obtain ⟨⟨second, hSecond, hReports', hSummary'⟩, hSeen'⟩ := h'
  refine ⟨⟨first ++ second, ?_, ?_, ?_⟩, ?_⟩
  · exact FileTree.processAll_append_iff.2 ⟨first, between.tree, second, hFirst, hSecond, rfl⟩
  · rw [hReports', hReports, List.reverse_append, List.append_assoc]
  · rw [hSummary', hSummary, List.foldl_append]
  · rw [hSeen', hSeen, List.map_append, List.reverse_append, List.append_assoc]

/-- A run keeps the outline of the tree. -/
theorem outline (h : Advances dryRun before after front) :
    after.tree.outline = before.tree.outline := by
  obtain ⟨reports, hProcessed, -, -⟩ := h.processed
  exact FileTree.processAll_outline hProcessed

end Advances

variable {progress ended : Progress} {failure : Failure}

/-- A path that has not been gone through is processed. -/
theorem Progress.visit_of_not_seen (h : progress.seen.contains path.components = false) :
    (∃ next, progress.visit dryRun path = .ok next ∧ Advances dryRun progress next [path]) ∨
      ∃ failure, progress.visit dryRun path = .error failure ∧
        progress.tree.process dryRun path = .error failure := by
  rw [visit, if_neg (by simpa using h)]
  cases hProcess : progress.tree.process dryRun path with
  | error failure => exact .inr ⟨failure, rfl, rfl⟩
  | ok processed =>
    obtain ⟨report, next⟩ := processed
    refine .inl ⟨_, rfl, ⟨[report], ?_, rfl, rfl⟩, rfl⟩
    exact FileTree.processAll_cons_iff.2 ⟨report, next, [], hProcess, rfl, rfl⟩

/-- Going through paths to the end processes those that are still to be gone through. -/
theorem visitAll_advances (h : visitAll dryRun paths progress = (ended, none)) :
    Advances dryRun progress ended (unseen progress.seen paths) := by
  induction paths generalizing progress with
  | nil =>
    obtain ⟨rfl, -⟩ := Prod.mk.inj h
    exact .refl _
  | cons path paths ih =>
    rw [visitAll] at h
    cases hSeen : progress.seen.contains path.components with
    | true =>
      rw [Progress.visit, if_pos hSeen] at h
      rw [unseen_cons_of_seen hSeen]
      exact ih h
    | false =>
      rw [unseen_cons_of_not_seen hSeen]
      obtain ⟨next, hVisit, hNext⟩ | ⟨failure, hVisit, -⟩ := Progress.visit_of_not_seen hSeen
      · rw [hVisit] at h
        have hRest := ih h
        rw [hNext.seen] at hRest
        exact hNext.trans hRest
      · simp [hVisit] at h

/-- Going through paths fails at one that is still to be gone through, behind others that have been
processed. -/
theorem visitAll_fails (h : visitAll dryRun paths progress = (ended, some failure)) :
    ∃ done path rest, unseen progress.seen paths = done ++ path :: rest ∧
      Advances dryRun progress ended done ∧ ended.tree.process dryRun path = .error failure := by
  induction paths generalizing progress with
  | nil => simp [visitAll] at h
  | cons path paths ih =>
    rw [visitAll] at h
    cases hSeen : progress.seen.contains path.components with
    | true =>
      rw [Progress.visit, if_pos hSeen] at h
      rw [unseen_cons_of_seen hSeen]
      exact ih h
    | false =>
      rw [unseen_cons_of_not_seen hSeen]
      obtain ⟨next, hVisit, hNext⟩ | ⟨failure', hVisit, hProcess⟩ :=
        Progress.visit_of_not_seen hSeen
      · rw [hVisit] at h
        obtain ⟨done, path', rest, hUnseen, hDone, hFault⟩ := ih h
        rw [hNext.seen] at hUnseen
        exact ⟨path :: done, path', rest, congrArg (path :: ·) hUnseen, hNext.trans hDone, hFault⟩
      · rw [hVisit] at h
        obtain ⟨rfl, hFailure⟩ := Prod.mk.inj h
        obtain rfl := Option.some.inj hFailure
        exact ⟨[], path, _, rfl, .refl _, hProcess⟩

-- ---------------------------------------------------------------------------
-- Patterns one after the other
-- ---------------------------------------------------------------------------

variable {pattern : List Char} {found : List (List Path)}

theorem FileTree.expandAll_cons_iff :
    tree.expandAll root (pattern :: patterns) unlisted = .ok found ↔
      ∃ paths rest, tree.expand root pattern unlisted = .ok paths ∧
        tree.expandAll root patterns unlisted = .ok rest ∧ found = paths :: rest := by
  rw [expandAll, List.mapM_cons, bind_eq_ok_iff]
  constructor
  · rintro ⟨paths, hPaths, hRest⟩
    obtain ⟨rest, hFound, hEnd⟩ := bind_eq_ok_iff.1 hRest
    exact ⟨paths, rest, hPaths, hFound, (Except.ok.inj hEnd).symm⟩
  · rintro ⟨paths, rest, hPaths, hFound, rfl⟩
    exact ⟨paths, hPaths, bind_eq_ok_iff.2 ⟨rest, hFound, rfl⟩⟩

/-- Going through patterns to the end processes the files that they stood for at the start, other
than those that have been gone through before. `hOutline` says that the tree as it is now has the
outline that the tree had at the start, so that expanding a pattern late gives what expanding it
early would have given. -/
theorem visitPatterns_advances (hOutline : progress.tree.outline = tree.outline)
    (h : visitPatterns dryRun root unlisted patterns progress = (ended, none)) :
    ∃ found, tree.expandAll root patterns unlisted = .ok found ∧
      Advances dryRun progress ended (unseen progress.seen found.flatten) := by
  induction patterns generalizing progress with
  | nil =>
    obtain ⟨rfl, -⟩ := Prod.mk.inj h
    exact ⟨[], rfl, .refl _⟩
  | cons pattern patterns ih =>
    rw [visitPatterns, FileTree.expand_of_outline hOutline] at h
    cases hExpand : tree.expand root pattern unlisted with
    | error fault =>
      rw [hExpand] at h
      simp at h
    | ok paths =>
      rw [hExpand] at h
      dsimp only at h
      split at h
      · rename_i next hVisit
        have hHere := visitAll_advances hVisit
        obtain ⟨rest, hRest, hBehind⟩ := ih (hHere.outline.trans hOutline) h
        refine ⟨paths :: rest, FileTree.expandAll_cons_iff.2 ⟨paths, rest, hExpand, hRest, rfl⟩, ?_⟩
        rw [List.flatten_cons, unseen_append, ← hHere.seen]
        exact hHere.trans hBehind
      · rename_i hEnded
        rw [h] at hEnded
        exact absurd rfl (hEnded ended)

/-- Going through patterns fails behind some that have been gone through to the end: the next one
cannot be expanded, or going through its files fails. -/
theorem visitPatterns_fails (hOutline : progress.tree.outline = tree.outline)
    (h : visitPatterns dryRun root unlisted patterns progress = (ended, some failure)) :
    ∃ front pattern behind found middle, patterns = front ++ pattern :: behind ∧
      tree.expandAll root front unlisted = .ok found ∧
      Advances dryRun progress middle (unseen progress.seen found.flatten) ∧
      ((∃ fault, tree.expand root pattern unlisted = .error fault ∧ ended = middle ∧
          failure = .pattern fault) ∨
        ∃ paths, tree.expand root pattern unlisted = .ok paths ∧
          visitAll dryRun paths middle = (ended, some failure)) := by
  induction patterns generalizing progress with
  | nil => simp [visitPatterns] at h
  | cons pattern patterns ih =>
    rw [visitPatterns, FileTree.expand_of_outline hOutline] at h
    cases hExpand : tree.expand root pattern unlisted with
    | error fault =>
      rw [hExpand] at h
      obtain ⟨rfl, hFailure⟩ := Prod.mk.inj h
      exact ⟨[], pattern, patterns, [], progress, rfl, rfl, .refl _,
        .inl ⟨fault, hExpand, rfl, (Option.some.inj hFailure).symm⟩⟩
    | ok paths =>
      rw [hExpand] at h
      dsimp only at h
      split at h
      · rename_i next hVisit
        have hHere := visitAll_advances hVisit
        obtain ⟨front, pattern', behind, found, middle, rfl, hFound, hMiddle, hEnd⟩ :=
          ih (hHere.outline.trans hOutline) h
        refine ⟨pattern :: front, pattern', behind, paths :: found, middle, rfl,
          FileTree.expandAll_cons_iff.2 ⟨paths, found, hExpand, hFound, rfl⟩, ?_, hEnd⟩
        rw [List.flatten_cons, unseen_append, ← hHere.seen]
        exact hHere.trans hMiddle
      · exact ⟨[], pattern, patterns, [], progress, rfl, rfl, .refl _, .inr ⟨paths, hExpand, h⟩⟩

-- ---------------------------------------------------------------------------
-- Plans of some of the patterns
-- ---------------------------------------------------------------------------

namespace FileTree

theorem expandAll_append_iff {front behind : List (List Char)} :
    tree.expandAll root (front ++ behind) unlisted = .ok found ↔
      ∃ first second, tree.expandAll root front unlisted = .ok first ∧
        tree.expandAll root behind unlisted = .ok second ∧ found = first ++ second := by
  induction front generalizing found with
  | nil =>
    constructor
    · exact fun h => ⟨[], found, rfl, h, rfl⟩
    · rintro ⟨first, second, hFirst, hSecond, rfl⟩
      obtain rfl := Except.ok.inj hFirst
      exact hSecond
  | cons pattern front ih =>
    rw [List.cons_append, expandAll_cons_iff]
    constructor
    · rintro ⟨paths, rest, hPaths, hRest, rfl⟩
      obtain ⟨first, second, hFirst, hSecond, rfl⟩ := ih.1 hRest
      exact ⟨paths :: first, second, expandAll_cons_iff.2 ⟨paths, first, hPaths, hFirst, rfl⟩,
        hSecond, rfl⟩
    · rintro ⟨first, second, hFirst, hSecond, rfl⟩
      obtain ⟨paths, rest, hPaths, hRest, rfl⟩ := expandAll_cons_iff.1 hFirst
      exact ⟨paths, rest ++ second, hPaths, ih.2 ⟨rest, second, hRest, hSecond, rfl⟩, rfl⟩

theorem plan_eq_ok_iff :
    tree.plan root patterns unlisted = .ok paths ↔
      ∃ found, tree.expandAll root patterns unlisted = .ok found ∧
        paths = firstOccurrences found.flatten := by
  rw [plan]
  cases tree.expandAll root patterns unlisted with
  | error fault => simp [Except.map]
  | ok found => simp [Except.map, eq_comm]

/-- No path comes twice in a plan. -/
theorem pairwise_plan (h : tree.plan root patterns unlisted = .ok paths) :
    paths.Pairwise fun path other => path.components ≠ other.components := by
  obtain ⟨found, -, rfl⟩ := plan_eq_ok_iff.1 h
  rw [← unseen_nil]
  exact pairwise_unseen [] found.flatten

/-- The plan of the first patterns starts the plan of all of them. -/
theorem plan_append {front behind : List (List Char)}
    (h : tree.plan root (front ++ behind) unlisted = .ok paths) :
    ∃ first more, tree.plan root front unlisted = .ok first ∧ paths = first ++ more := by
  obtain ⟨found, hFound, rfl⟩ := plan_eq_ok_iff.1 h
  obtain ⟨first, second, hFirst, -, rfl⟩ := expandAll_append_iff.1 hFound
  rw [List.flatten_append, ← unseen_nil, unseen_append, unseen_nil]
  exact ⟨_, _, plan_eq_ok_iff.2 ⟨first, hFirst, rfl⟩, rfl⟩

end FileTree

-- ---------------------------------------------------------------------------
-- Runs that have ended
-- ---------------------------------------------------------------------------

/-- What stops a run behind the files that it has processed: the next pattern cannot be expanded, or
the next file of a pattern cannot be read. -/
inductive Stops (tree : FileTree) (root : Path) (patterns : List (List Char)) (unlisted : Unlisted)
    (files : List Path) (last : FileTree) : Failure → Prop where
  | pattern {front behind : List (List Char)} {pattern : List Char} {fault : ExpansionFault}
      (hPatterns : patterns = front ++ pattern :: behind)
      (hPlan : tree.plan root front unlisted = .ok files)
      (hFault : tree.expand root pattern unlisted = .error fault) :
      Stops tree root patterns unlisted files last (.pattern fault)
  | read {front behind : List (List Char)} {pattern : List Char} {before done rest : List Path}
      {path : Path} {fault : AccessFault}
      (hPatterns : patterns = front ++ pattern :: behind)
      (hBefore : tree.plan root front unlisted = .ok before)
      (hFiles : files = before ++ done)
      (hPlan : tree.plan root (front ++ [pattern]) unlisted = .ok (files ++ path :: rest))
      (hFault : last.read path = .error fault) :
      Stops tree root patterns unlisted files last (.read path fault)

/-- A plan that can be made and carried out does not stop. -/
theorem Stops.not_processed {files : List Path} {first : List Report}
    (h : Stops tree root patterns unlisted files next failure)
    (hFiles : tree.processAll dryRun files = .ok (first, next))
    (hPlan : tree.plan root patterns unlisted = .ok paths) :
    tree.processAll dryRun paths ≠ .ok (reports, last) := by
  intro hAll
  cases h with
  | pattern hPatterns hFront hFault =>
    obtain ⟨found, hFound, -⟩ := FileTree.plan_eq_ok_iff.1 (hPatterns ▸ hPlan)
    obtain ⟨-, behind, -, hBehind, -⟩ := FileTree.expandAll_append_iff.1 hFound
    obtain ⟨paths, -, hExpand, -⟩ := FileTree.expandAll_cons_iff.1 hBehind
    rw [hFault] at hExpand
    contradiction
  | @read front behind pattern before done rest path fault hPatterns hBefore hParts hHere hFault =>
    rw [hPatterns, List.append_cons] at hPlan
    obtain ⟨planned, more, hPlanned, rfl⟩ := FileTree.plan_append hPlan
    obtain rfl := Except.ok.inj (hHere.symm.trans hPlanned)
    rw [List.append_assoc, FileTree.processAll_append_iff] at hAll
    obtain ⟨first', next', second, hFirst, hSecond, -⟩ := hAll
    obtain ⟨-, rfl⟩ := Prod.mk.inj (Except.ok.inj (hFiles.symm.trans hFirst))
    obtain ⟨report, _, _, hProcess, -⟩ := FileTree.processAll_cons_iff.1 hSecond
    obtain ⟨text, hRead, -⟩ := FileTree.process_cases hProcess
    rw [hFault] at hRead
    contradiction

/-- A run has processed the files that it reports. -/
theorem Advances.outcome {files : List Path} (h : Advances dryRun (.start tree) ended files)
    (failure : Option Failure) :
    let outcome := ended.outcome failure
    tree.processAll dryRun files = .ok (outcome.reports, outcome.tree) ∧
      outcome.reports.map Report.file = files ∧
      outcome.summary = Summary.ofReports outcome.reports := by
  intro outcome
  obtain ⟨reports, hProcessed, hReports, hSummary⟩ := h.processed
  have hOutcome : outcome.reports = reports := by
    show ended.reports.reverse = reports
    rw [hReports]
    simp [Progress.start]
  rw [hOutcome]
  exact ⟨hProcessed, FileTree.processAll_files hProcessed,
    hSummary.trans (Summary.foldl_count_start reports)⟩

/-- A run that goes through all patterns has processed the files of its plan. -/
theorem visitPatterns_plan
    (h : visitPatterns dryRun root unlisted patterns (.start tree) = (ended, none)) :
    ∃ files, Advances dryRun (.start tree) ended files ∧
      tree.plan root patterns unlisted = .ok files := by
  obtain ⟨found, hFound, hAdvances⟩ := visitPatterns_advances rfl h
  exact ⟨_, hAdvances, FileTree.plan_eq_ok_iff.2 ⟨found, hFound, unseen_nil _⟩⟩

/-- A run that fails has processed the files in front of what stops it. -/
theorem visitPatterns_stops
    (h : visitPatterns dryRun root unlisted patterns (.start tree) = (ended, some failure)) :
    ∃ files, Advances dryRun (.start tree) ended files ∧
      Stops tree root patterns unlisted files ended.tree failure := by
  obtain ⟨front, pattern, behind, found, middle, hPatterns, hFound, hMiddle, hEnd⟩ :=
    visitPatterns_fails rfl h
  have hFront : tree.plan root front unlisted = .ok (unseen [] found.flatten) :=
    FileTree.plan_eq_ok_iff.2 ⟨found, hFound, unseen_nil _⟩
  rcases hEnd with ⟨fault, hFault, rfl, rfl⟩ | ⟨paths, hExpand, hVisit⟩
  · exact ⟨_, hMiddle, .pattern hPatterns hFront hFault⟩
  · obtain ⟨done, path, rest, hUnseen, hDone, hProcess⟩ := visitAll_fails hVisit
    obtain ⟨fault, hFault, rfl⟩ := FileTree.process_error hProcess
    have hHere : tree.expandAll root (front ++ [pattern]) unlisted = .ok (found ++ [paths]) :=
      FileTree.expandAll_append_iff.2 ⟨found, [paths], hFound,
        FileTree.expandAll_cons_iff.2 ⟨paths, [], hExpand, rfl, rfl⟩, rfl⟩
    have hParts : unseen [] found.flatten ++ done ++ path :: rest
        = firstOccurrences (found ++ [paths]).flatten := by
      calc unseen [] found.flatten ++ done ++ path :: rest
          = unseen [] found.flatten ++ unseen middle.seen paths := by
            rw [hUnseen, List.append_assoc]
        _ = unseen [] (found.flatten ++ paths) := by
            rw [hMiddle.seen, unseen_append]
            rfl
        _ = firstOccurrences (found ++ [paths]).flatten := by
            rw [unseen_nil, List.flatten_append, List.flatten_singleton]
    have hPlan := FileTree.plan_eq_ok_iff.2 ⟨_, hHere, hParts⟩
    exact ⟨_, hMiddle.trans hDone, .read hPatterns hFront rfl hPlan hFault⟩

/-- **What a run has done.** A run has processed the files that it reports, in this order and
from the tree at the start, and has counted them. If it has come to its end, these are the files
of its plan; if it has failed, they are the files in front of what stops it. There is no
hypothesis, so this is what the theorems on complete runs, dry runs and runs that end early start
from. -/
theorem run_cases (tree : FileTree) (root : Path) (patterns : List (List Char)) (dryRun : Bool)
    (unlisted : Unlisted) :
    let outcome := run tree root patterns dryRun unlisted
    let files := outcome.reports.map Report.file
    tree.processAll dryRun files = .ok (outcome.reports, outcome.tree) ∧
      outcome.summary = Summary.ofReports outcome.reports ∧
      (outcome.failure = none → tree.plan root patterns unlisted = .ok files) ∧
      ∀ failure, outcome.failure = some failure →
        Stops tree root patterns unlisted files outcome.tree failure := by
  intro outcome files
  cases hRun : visitPatterns dryRun root unlisted patterns (.start tree) with
  | mk ended failure? =>
    have hOutcome : outcome = ended.outcome failure? := by simp only [outcome, run, hRun]
    cases failure? with
    | none =>
      obtain ⟨files', hAdvances, hPlan⟩ := visitPatterns_plan hRun
      obtain ⟨hProcessed, hFiles, hSummary⟩ := hAdvances.outcome none
      rw [← hOutcome] at hProcessed hFiles hSummary
      obtain rfl : files = files' := hFiles
      refine ⟨hProcessed, hSummary, fun _ => hPlan, fun failure hFailure => ?_⟩
      rw [hOutcome] at hFailure
      contradiction
    | some failure =>
      obtain ⟨files', hAdvances, hStops⟩ := visitPatterns_stops hRun
      obtain ⟨hProcessed, hFiles, hSummary⟩ := hAdvances.outcome (some failure)
      rw [← hOutcome] at hProcessed hFiles hSummary
      obtain rfl : files = files' := hFiles
      refine ⟨hProcessed, hSummary, fun hNone => ?_, fun failure' hFailure => ?_⟩
      · rw [hOutcome] at hNone
        contradiction
      · rw [hOutcome] at hFailure ⊢
        obtain rfl := Option.some.inj hFailure
        exact hStops

/-- **Runs and plans.** The patterns of a run are expanded one by one, with files written in
between. Still a run comes to its end if and only if its plan can be made on the tree as it was at
the start, each of the paths once and in the order in which they are found, and the files of the
plan can be processed one after the other; then its reports and its tree are those of carrying out
the plan.

However it ends, its counters tell how many reports there are and how many of them tell of a
change, the tree keeps its outline, and a file that no report has written holds what it held. The
tree, the root, the patterns and the directories that cannot be listed are arbitrary. -/
theorem run_eq_plan (tree : FileTree) (root : Path) (patterns : List (List Char)) (dryRun : Bool)
    (unlisted : Unlisted) :
    let outcome := run tree root patterns dryRun unlisted
    (outcome.failure = none ↔ ∃ paths, tree.plan root patterns unlisted = .ok paths ∧
        tree.processAll dryRun paths = .ok (outcome.reports, outcome.tree) ∧
        outcome.summary = ⟨paths.length, outcome.reports.countP Report.changed⟩) ∧
      outcome.summary = Summary.ofReports outcome.reports ∧
      outcome.tree.outline = tree.outline ∧
      ∀ location, (∀ report ∈ outcome.reports, ¬report.Writes tree location) →
        outcome.tree.bytes? location = tree.bytes? location := by
  intro outcome
  obtain ⟨hProcessed, hSummary, hPlan, hStops⟩ := run_cases tree root patterns dryRun unlisted
  refine ⟨⟨fun hNone => ?_, ?_⟩, hSummary, FileTree.processAll_outline hProcessed,
    fun location hKept => FileTree.processAll_bytes? hProcessed hKept⟩
  · refine ⟨_, hPlan hNone, hProcessed, ?_⟩
    rw [hSummary, Summary.ofReports, List.length_map]
  · rintro ⟨paths, hPaths, hAll, -⟩
    cases hFailure : outcome.failure with
    | none => rfl
    | some failure => exact absurd hAll ((hStops failure hFailure).not_processed hProcessed hPaths)

end Relocation

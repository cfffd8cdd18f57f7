import Relocation.FileTree.Edit
import Relocation.Proofs.EarlyEnd

/-!
# One file under two paths

A run goes through no path twice, but it tells paths apart by their components. A file can be
reached by paths with different components: one starts at the root and another in the working
directory, one goes down into a directory and up again, one comes upon a link. Then the file is
processed once for each of them. If two paths start alike, lead down all the way and come upon no
link, their components are those of the place that they lead to. So such paths are gone through
once for each file.

## Results

* `LeadApart`: no file is named by two paths;
* `FileTree.Straight.components_eq`: straight paths to one file have the same components;
* `run_apart`: which reports of a run can tell of one file;
* `not_apart_run`: two reports of a run can tell of one file.
-/

namespace Relocation

open Text

variable {tree : FileTree} {path other : Path} {location from_ : Location}

/-- Of the paths that are named, no two lead to one file, unless they have the same components. -/
def LeadApart (tree : FileTree) (named : Path → Prop) : Prop :=
  ∀ path other location, named path → named other → tree.resolve path = .ok location →
    tree.resolve other = .ok location → path.components = other.components

/-- The reports do not tell of one file. -/
def Report.Apart (tree : FileTree) (report later : Report) : Prop :=
  ∀ location, tree.resolve report.file = .ok location → tree.resolve later.file ≠ .ok location

-- ---------------------------------------------------------------------------
-- Straight paths
-- ---------------------------------------------------------------------------

theorem Component.ofSegment?_of_name {segment : List Char}
    (hStays : ¬(segment = [] ∨ segment = ['.'])) (hUp : segment ≠ ['.', '.']) :
    ofSegment? segment = some (name segment) := by
  unfold ofSegment?
  split
  · exact absurd (.inl rfl) hStays
  · exact absurd (.inr rfl) hStays
  · exact absurd rfl hUp
  · rfl

/-- A segment means nothing only if it stays where it is. -/
theorem Component.ofSegment?_eq_none_iff {segment : List Char} :
    ofSegment? segment = none ↔ segment = [] ∨ segment = ['.'] := by
  constructor
  · intro hNone
    by_contra hStays
    by_cases hUp : segment = ['.', '.']
    · subst hUp
      contradiction
    · rw [ofSegment?_of_name hStays hUp] at hNone
      contradiction
  · rintro (rfl | rfl) <;> rfl

/-- Behind the start, components are what the segments mean. -/
theorem Path.components_eq (path : Path) :
    path.components
      = path.anchored.1.toList ++ path.segments.filterMap Component.ofSegment? := by
  show path.anchored.1.toList ++ path.anchored.2.filterMap Component.ofSegment? = _
  congr 1
  unfold anchored
  -- the segment that the start takes means nothing by itself
  split
  · rename_i hSegments
    rw [hSegments]
    rfl
  · rename_i hSegments
    rw [hSegments]
    rfl
  · rfl

/-- A path starts at the root if and only if its first component says so. -/
theorem Path.isAbsolute_iff (path : Path) :
    path.isAbsolute = true ↔ path.anchored.1 = some .root := by
  obtain ⟨text⟩ := path
  cases text with
  | nil => decide
  | cons c cs =>
    rw [isAbsolute, anchored, Path.segments, Text.segments]
    obtain ⟨next, rest, hRest⟩ := List.exists_cons_of_ne_nil (segments_ne_nil '/' cs)
    rw [hRest]
    by_cases hSlash : c = '/'
    · simp [hSlash]
    · rw [if_neg hSlash, consFirst]
      constructor
      · intro hHead
        exact absurd (by simpa using hHead) hSlash
      · intro hRoot
        split at hRoot
        · rename_i hSegments
          exact absurd (List.cons.inj hSegments).1 (List.cons_ne_nil c next)
        · simp at hRoot
        · simp at hRoot

/-- Segments that lead down without links are the names behind the location that they start at. -/
theorem FileTree.follow_names {links : Nat} {segments : List (List Char)} (hLinks : links = 0)
    (h : tree.follow links from_ segments = .ok location)
    (hDown : Component.up ∉ segments.filterMap Component.ofSegment?) :
    location.map Component.name
      = from_.map Component.name ++ segments.filterMap Component.ofSegment? := by
  fun_induction tree.follow links from_ segments with
  | case1 links from_ =>
    obtain rfl := Except.ok.inj h
    rw [List.filterMap_nil, List.append_nil]
  | case2 links from_ segment rest entries hAt hStays ih =>
    rw [List.filterMap_cons_none (Component.ofSegment?_eq_none_iff.2 hStays)] at hDown ⊢
    exact ih hLinks h hDown
  | case3 links from_ rest entries hAt hMoves ih => exact absurd List.mem_cons_self hDown
  | case4 | case5 | case6 | case7 | case9 =>
    -- a fault, or a link where none may be followed
    contradiction
  | case8 links from_ segment rest entries hAt hMoves hUp hShort node hNoLink hFind ih =>
    rw [List.filterMap_cons_some (Component.ofSegment?_of_name hMoves hUp)] at hDown ⊢
    rw [ih hLinks h fun hMem => hDown (List.mem_cons_of_mem _ hMem), List.map_append,
      List.append_assoc]
    rfl

/-- The path leads down by names alone: it does not go up, and it comes upon no link. -/
structure FileTree.Straight (tree : FileTree) (path : Path) : Prop where
  down : Component.up ∉ path.components
  direct : tree.follow 0 (tree.startOf path) path.segments = tree.resolve path

namespace FileTree.Straight

/-- Where a straight path leads to is told by its components. -/
theorem location_eq (h : tree.Straight path) (hResolve : tree.resolve path = .ok location) :
    location.map Component.name
      = (tree.startOf path).map Component.name
        ++ path.segments.filterMap Component.ofSegment? := by
  refine follow_names rfl (h.direct.trans hResolve) ?_
  intro hUp
  refine h.down ?_
  rw [Path.components_eq]
  exact List.mem_append_right _ hUp

/-- Straight paths to one file that start alike have the same components. -/
theorem components_eq (h : tree.Straight path) (h' : tree.Straight other)
    (hStart : path.anchored.1 = other.anchored.1) (hPath : tree.resolve path = .ok location)
    (hOther : tree.resolve other = .ok location) : path.components = other.components := by
  have hFrom : tree.startOf path = tree.startOf other := by
    have hRoot : path.isAbsolute = other.isAbsolute := by
      rw [Bool.eq_iff_iff, Path.isAbsolute_iff, Path.isAbsolute_iff, hStart]
    rw [startOf, startOf, hRoot]
  have hNames := (h.location_eq hPath).symm.trans (h'.location_eq hOther)
  rw [hFrom] at hNames
  rw [Path.components_eq, Path.components_eq, hStart, List.append_cancel_left hNames]

end FileTree.Straight

-- ---------------------------------------------------------------------------
-- Reports of one run
-- ---------------------------------------------------------------------------

/-- A run goes through no path twice. -/
theorem pairwise_run (tree : FileTree) (root : Path) (patterns : List (List Char)) (dryRun : Bool)
    (unlisted : Unlisted) :
    ((run tree root patterns dryRun unlisted).reports.map Report.file).Pairwise
      fun path other => path.components ≠ other.components := by
  obtain ⟨-, -, hPlan, hStops⟩ := run_cases tree root patterns dryRun unlisted
  cases hFailure : (run tree root patterns dryRun unlisted).failure with
  | none => exact FileTree.pairwise_plan (hPlan hFailure)
  | some failure =>
    cases hStops failure hFailure with
    | pattern _ hFront _ => exact FileTree.pairwise_plan hFront
    | read _ _ _ hHere _ => exact (List.pairwise_append.1 (FileTree.pairwise_plan hHere)).1

/-- Reports of straight paths that start alike do not tell of one file. -/
theorem Report.apart_of_straight {report later : Report}
    (hDifferent : report.file.components ≠ later.file.components)
    (hStart : report.file.anchored.1 = later.file.anchored.1) (h : tree.Straight report.file)
    (h' : tree.Straight later.file) : report.Apart tree later := by
  intro location hReport hLater
  exact hDifferent (h.components_eq h' hStart hReport hLater)

/-- If no path has two reports, no file has two reports if and only if the paths lead apart. -/
theorem pairwise_apart_iff {reports : List Report}
    (hDifferent : reports.Pairwise fun report later =>
      report.file.components ≠ later.file.components) :
    reports.Pairwise (Report.Apart tree) ↔
      LeadApart tree fun path => ∃ report ∈ reports, report.file = path := by
  constructor
  · intro hApart
    have : Std.Symm (Report.Apart tree) :=
      ⟨fun _ _ hEither location hThere hHere => hEither location hHere hThere⟩
    rintro _ _ location ⟨report, hMem, rfl⟩ ⟨later, hMem', rfl⟩ hReport hLater
    by_cases hSame : report = later
    · rw [hSame]
    · exact absurd hLater (hApart.forall hMem hMem' hSame location hReport)
  · intro hApart
    refine hDifferent.imp_of_mem ?_
    intro report later hMem hMem' hComponents location hReport hLater
    exact hComponents
      (hApart _ _ location ⟨report, hMem, rfl⟩ ⟨later, hMem', rfl⟩ hReport hLater)

/-- **Files and their reports.** Every report of a run tells of a file of the tree. No two of them
tell of paths with the same components, and if two paths start alike, go up nowhere and come upon
no link, they lead to different files.

A run may still tell of one file twice, by a path that goes up or by a link. No file has two
reports if and only if no two of the reported paths lead to one file. There is no hypothesis on
the tree, the root or the patterns, and the run may end early. -/
theorem run_apart (tree : FileTree) (root : Path) (patterns : List (List Char)) (dryRun : Bool)
    (unlisted : Unlisted) :
    let reports := (run tree root patterns dryRun unlisted).reports
    (∀ report ∈ reports, tree.isFile report.file = true) ∧
      reports.Pairwise (fun report later =>
        report.file.components ≠ later.file.components ∧
          (report.file.anchored.1 = later.file.anchored.1 → tree.Straight report.file →
            tree.Straight later.file → report.Apart tree later)) ∧
      (reports.Pairwise (Report.Apart tree) ↔
        LeadApart tree fun path => ∃ report ∈ reports, report.file = path) := by
  intro reports
  have hDifferent := List.pairwise_map.1 (pairwise_run tree root patterns dryRun unlisted)
  refine ⟨?_, ?_, pairwise_apart_iff hDifferent⟩
  · intro report hMem
    obtain ⟨hProcessed, -⟩ := run_cases tree root patterns dryRun unlisted
    exact FileTree.processAll_isFile hProcessed report.file (List.mem_map_of_mem hMem)
  · refine hDifferent.imp ?_
    intro report later hComponents
    exact ⟨hComponents, Report.apart_of_straight hComponents⟩

-- ---------------------------------------------------------------------------
-- Into a directory and out again
-- ---------------------------------------------------------------------------

/-- A file with the text, and a directory beside it. -/
def detourTree (text : String) : FileTree :=
  ⟨.directory (.entry "a.ts".toList (.file text.toUTF8)
    (.entry "sub".toList (.directory .none) .none)), []⟩

/-- The file, and the file by way of the directory. -/
def detourPatterns : List (List Char) := ["a.ts".toList, "sub/../a.ts".toList]

section Detour

variable {text : String}

/-- Both ways lead to the file. -/
theorem resolve_detourTree (text : String) :
    (detourTree text).resolve ⟨"./a.ts".toList⟩ = .ok ["a.ts".toList] ∧
      (detourTree text).resolve ⟨"./sub/../a.ts".toList⟩ = .ok ["a.ts".toList] := by
  have hFile (links : Nat) : (detourTree text).follow links [] ["a.ts".toList]
      = .ok ["a.ts".toList] :=
    (FileTree.follow_file rfl (by decide) rfl).trans FileTree.follow_nil
  constructor
  · rw [FileTree.resolve_of_short (by decide) (by decide) (by decide)]
    exact (FileTree.follow_dot rfl).trans (hFile _)
  · rw [FileTree.resolve_of_short (by decide) (by decide) (by decide)]
    calc (detourTree text).follow _ [] [['.'], "sub".toList, ['.', '.'], "a.ts".toList]
        = (detourTree text).follow _ [] ["sub".toList, ['.', '.'], "a.ts".toList] :=
          FileTree.follow_dot rfl
      _ = (detourTree text).follow _ ["sub".toList] [['.', '.'], "a.ts".toList] :=
          FileTree.follow_node rfl (by decide) rfl fun _ => Node.noConfusion
      _ = (detourTree text).follow _ [] ["a.ts".toList] := FileTree.follow_up rfl
      _ = .ok ["a.ts".toList] := hFile _

/-- What the patterns stand for. -/
theorem expand_detourTree (text : String) :
    (detourTree text).expand here "a.ts".toList = .ok [⟨"./a.ts".toList⟩] ∧
      (detourTree text).expand here "sub/../a.ts".toList = .ok [⟨"./sub/../a.ts".toList⟩] := by
  have hFile {path : Path} (hResolve : (detourTree text).resolve path = .ok ["a.ts".toList]) :
      (detourTree text).isFile path = true :=
    FileTree.isFile_of_read (FileTree.read_of_file hResolve rfl)
  obtain ⟨hFirst, hSecond⟩ := resolve_detourTree text
  exact ⟨FileTree.expand_of_file (by decide) (hFile hFirst) (by cbv),
    FileTree.expand_of_file (by decide) (hFile hSecond) (by cbv)⟩

/-- A path that leads to the file has it processed. -/
theorem process_detourTree (hResolve : (detourTree text).resolve path = .ok ["a.ts".toList])
    (dryRun : Bool) :
    ∃ report text', (detourTree text).process dryRun path = .ok (report, detourTree text') ∧
      report.file = path := by
  have hRead : (detourTree text).read path = .ok text := FileTree.read_of_file hResolve rfl
  have hWrite (text' : String) : (detourTree text).write path text' = detourTree text' := by
    unfold FileTree.write
    rw [hResolve]
    rfl
  rw [FileTree.process_of_read hRead, processed, hWrite]
  cases relocate text path.toString != text && !dryRun with
  | true => exact ⟨_, relocate text path.toString, rfl, Path.ofString_toString path⟩
  | false => exact ⟨_, text, rfl, Path.ofString_toString path⟩

/-- The file is processed twice. -/
theorem reports_detourTree (text : String) (dryRun : Bool) :
    ∃ first second,
      (run (detourTree text) here detourPatterns dryRun).reports = [first, second] ∧
      first.file = ⟨"./a.ts".toList⟩ ∧ second.file = ⟨"./sub/../a.ts".toList⟩ := by
  obtain ⟨first, text', hFirst, hFirstFile⟩ :=
    process_detourTree (resolve_detourTree text).1 dryRun
  obtain ⟨second, text'', hSecond, hSecondFile⟩ :=
    process_detourTree (resolve_detourTree text').2 dryRun
  refine ⟨first, second, ?_, hFirstFile, hSecondFile⟩
  have hNew : ([(Path.mk "./a.ts".toList).components].contains
      (Path.mk "./sub/../a.ts".toList).components) = false := by decide
  obtain ⟨hExpand, -⟩ := expand_detourTree text
  obtain ⟨-, hExpand'⟩ := expand_detourTree text'
  simp only [run, detourPatterns, visitPatterns, Progress.start, visitAll, Progress.visit,
    List.contains_nil, Bool.false_eq_true, if_false, Except.map, hExpand, hFirst, hExpand', hNew,
    hSecond]
  rfl

/-- Only the first way is straight. -/
theorem straight_detourTree (text : String) :
    (detourTree text).Straight ⟨"./a.ts".toList⟩ ∧
      ¬(detourTree text).Straight ⟨"./sub/../a.ts".toList⟩ := by
  constructor
  · refine ⟨by decide, ?_⟩
    rw [(resolve_detourTree text).1]
    exact ((FileTree.follow_dot rfl).trans (FileTree.follow_file rfl (by decide) rfl)).trans
      FileTree.follow_nil
  · intro hStraight
    exact absurd hStraight.down (by decide)

end Detour

/-- Both reports tell of files, by paths that differ, and only the first path is straight. -/
theorem apart_detourTree :
    let tree := detourTree "import '@aws-cdk/core';\n"
    ∃ first second, (run tree here detourPatterns false).reports = [first, second] ∧
      tree.isFile first.file = true ∧ tree.isFile second.file = true ∧
      first.file.components ≠ second.file.components ∧
      tree.Straight first.file ∧ ¬tree.Straight second.file := by
  intro tree
  obtain ⟨first, second, hReports, hFirst, hSecond⟩ :
      ∃ first second, (run tree here detourPatterns false).reports = [first, second] ∧
        first.file = ⟨"./a.ts".toList⟩ ∧ second.file = ⟨"./sub/../a.ts".toList⟩ :=
    reports_detourTree _ false
  obtain ⟨hStraight, hDetour⟩ := straight_detourTree "import '@aws-cdk/core';\n"
  obtain ⟨hFiles, hPairs, -⟩ := run_apart tree here detourPatterns false allListed
  rw [hReports] at hFiles hPairs
  refine ⟨first, second, hReports, ?_, ?_, ?_, ?_, ?_⟩
  · exact hFiles first List.mem_cons_self
  · exact hFiles second (List.mem_cons_of_mem _ List.mem_cons_self)
  · exact (List.rel_of_pairwise_cons hPairs List.mem_cons_self).1
  · rwa [hFirst]
  · rwa [hSecond]

/-- Two reports of a run can tell of one file: two dots in a path take its components apart from
those of the straight path, and lead to the same file. -/
theorem not_apart_run :
    ¬∀ (tree : FileTree) (root : Path) (patterns : List (List Char)) (dryRun : Bool)
      (unlisted : Unlisted),
      (run tree root patterns dryRun unlisted).reports.Pairwise (Report.Apart tree) := by
  intro h
  have hApart := h (detourTree "import '@aws-cdk/core';\n") here detourPatterns false allListed
  obtain ⟨first, second, hReports, hFirst, hSecond⟩ :=
    reports_detourTree "import '@aws-cdk/core';\n" false
  rw [hReports] at hApart
  obtain ⟨hFirstResolve, hSecondResolve⟩ := resolve_detourTree "import '@aws-cdk/core';\n"
  refine List.rel_of_pairwise_cons hApart List.mem_cons_self ["a.ts".toList] ?_ ?_
  · rw [hFirst, hFirstResolve]
  · rw [hSecond, hSecondResolve]

end Relocation

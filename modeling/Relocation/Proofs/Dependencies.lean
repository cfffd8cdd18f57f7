import Relocation.Proofs.DirectWays
import Relocation.Proofs.LeftOut

/-!
# Directories of dependencies

No walk enters a directory of dependencies. But a walk starts where the plain segments of its glob
lead, whatever they lead through, and to a file that is named by a plain path there is no walk at
all. So whether a pattern finds files in a directory of dependencies is a matter of its plain
segments: if they lead into one, all that it finds is in there, and if not, nothing is.

Nothing else of this kind is ever touched, with one exception. A link on the way can lead into such
a directory under any name.

## Results

* `entersDependencies_iff`: when plain segments lead into a directory of dependencies;
* `FileTree.Finds.exists_comesTo`: how a pattern comes to what it finds;
* `ComesTo.inDependencies_iff`: what is found is in a directory of dependencies just when the plain
  segments lead into one;
* `ComesTo.mem_plainSegments`: so it is with where a file is, if no link is on the way;
* `run_sparesDependencies`: directories of dependencies are touched only where plain segments of a
  pattern lead into them;
* `not_forall_not_inDependencies`: some are.
-/

namespace Relocation

open Text

variable {tree : FileTree} {root path : Path} {paths : List Path} {pattern : List Char}
  {front passed : List (List Char)} {segment : List Char} {name : Name}
  {location base inside : Location}

-- ---------------------------------------------------------------------------
-- Names among components
-- ---------------------------------------------------------------------------

theorem name_mem_filterMap_iff (hName : IsNamed name) :
    Component.name name ∈ front.filterMap Component.ofSegment? ↔ name ∈ front := by
  rw [List.mem_filterMap]
  constructor
  · rintro ⟨segment, hMem, hSegment⟩
    unfold Component.ofSegment? at hSegment
    split at hSegment
    · contradiction
    · contradiction
    · simp at hSegment
    · rwa [← Component.name.inj (Option.some.inj hSegment)]
  · exact fun hMem => ⟨name, hMem, hName.ofSegment?⟩

/-- A name is among the components of a path if it is among the segments. -/
theorem Path.name_mem_components_iff (hName : IsNamed name) :
    Component.name name ∈ path.components ↔ name ∈ path.segments := by
  have hStart : Component.name name ∉ path.anchored.1.toList := by
    unfold anchored
    split <;> simp
  rw [components_eq, List.mem_append, or_iff_right hStart, name_mem_filterMap_iff hName]

theorem isNamed_dependencyDirectory : IsNamed dependencyDirectory := by decide

-- ---------------------------------------------------------------------------
-- Paths into directories of dependencies
-- ---------------------------------------------------------------------------

/-- The path leads through a directory of dependencies below the root. -/
def InDependencies (root path : Path) : Prop :=
  ∃ rest, path.components = root.components ++ rest ∧
    Component.name dependencyDirectory ∈ rest.dropLast

/-- The plain segments of the pattern lead into a directory of dependencies below the root. -/
def EntersDependencies (root : Path) (pattern : List Char) : Prop :=
  ∃ rest, (placeOf root (Glob.plainSegments pattern)).components = root.components ++ rest ∧
    Component.name dependencyDirectory ∈ rest

/-- The plain segments of a pattern that does not start with a slash lead into a directory of
dependencies if they name one. -/
theorem entersDependencies_iff (h : pattern.head? ≠ some '/') :
    EntersDependencies root pattern ↔ dependencyDirectory ∈ Glob.plainSegments pattern := by
  have hFree : ∀ segment ∈ Glob.plainSegments pattern, '/' ∉ segment := fun segment =>
    Glob.slash_notMem_of_mem_plainSegments
  have hBase : (baseOf (Glob.plainSegments pattern)).head? ≠ some '/' := by
    rw [ne_eq, head_baseOf hFree]
    intro hHead
    obtain ⟨others, hOthers⟩ := List.head?_eq_some_iff.1 hHead
    obtain ⟨more, hMore⟩ := Glob.exists_eq_terminated pattern
    rw [hMore, hOthers] at h
    exact h rfl
  rw [EntersDependencies, placeOf, Path.join_eq hBase,
    ← mem_segments_baseOf_iff hFree isNamed_dependencyDirectory.ne_nil]
  by_cases hText : root.text = []
  · have hRoot : root = ⟨[]⟩ := by rw [← hText]
    subst hRoot
    constructor
    · rintro ⟨rest, hRest, hMem⟩
      exact (Path.name_mem_components_iff isNamed_dependencyDirectory).1 (hRest ▸ hMem)
    · exact fun hMem =>
        ⟨_, rfl, (Path.name_mem_components_iff isNamed_dependencyDirectory).2 hMem⟩
  · rw [Path.components_lead hText]
    constructor
    · rintro ⟨rest, hRest, hMem⟩
      rw [← List.append_cancel_left hRest] at hMem
      exact (name_mem_filterMap_iff isNamed_dependencyDirectory).1 hMem
    · exact fun hMem =>
        ⟨_, rfl, (name_mem_filterMap_iff isNamed_dependencyDirectory).2 hMem⟩

-- ---------------------------------------------------------------------------
-- How patterns come to paths
-- ---------------------------------------------------------------------------

/-- The pattern comes to the path from the root: segments are passed first, and no names are among
them but those in the plain segments, and then it goes on by names. Of these only the last one can
be the name of directories of dependencies. -/
structure ComesTo (root : Path) (pattern : List Char) (path : Path) (passed : List (List Char))
    (location : Location) : Prop where
  joins : path = root.join ⟨terminated '/' passed ++ joined '/' location⟩
  means : path.components
    = (placeOf root (Glob.plainSegments pattern)).components ++ location.map Component.name
  free : ∀ segment ∈ passed, '/' ∉ segment
  plain : ∀ segment ∈ passed, segment ≠ [] → segment ∈ Glob.plainSegments pattern
  filled : location ≠ []
  named : ∀ name ∈ location, IsNamed name
  spared : dependencyDirectory ∉ location.dropLast

/-- A name behind segments and their slashes means one component more than the segments. -/
theorem components_join_terminated (hFree : ∀ segment ∈ front, '/' ∉ segment)
    (hName : IsNamed name) :
    (root.join ⟨terminated '/' front ++ name⟩).components
      = (placeOf root front).components ++ [.name name] := by
  have hNames : ∀ other ∈ [name], IsNamed other := by simpa using hName
  by_cases hOpen : front = [] ∨ front = [[]]
  · have hLead : terminated '/' front = (Path.mk (baseOf front)).lead := by
      rcases hOpen with rfl | rfl
      · exact (Path.lead_of_open (.inl rfl)).symm
      · exact (Path.lead_of_open (.inr rfl)).symm
    have hPath : root.join ⟨terminated '/' front ++ name⟩
        = (placeOf root front).descend [name] := by
      rw [placeOf, ← Path.join_descend, Path.descend_eq (List.cons_ne_nil name []) hNames, hLead]
      rfl
    rw [hPath, Path.components_descend hNames]
    rfl
  · obtain ⟨hSome, hFilled⟩ := not_or.1 hOpen
    have hBase : baseOf front ≠ [] := by
      rw [baseOf, if_neg hFilled]
      exact joined_ne_nil hSome hFilled
    obtain ⟨start, hStart⟩ := root.exists_join_append hBase
    have hPlace : placeOf root front = ⟨start ++ baseOf front⟩ := by
      have hHere := hStart []
      rwa [List.append_nil] at hHere
    rw [terminated_eq_baseOf hSome hFilled hFree, List.append_assoc, hStart, hPlace,
      ← List.append_assoc]
    refine (Path.components_slash (List.append_ne_nil_of_right_ne_nil start hBase) name).trans ?_
    rw [segments_of_notMem hName.2, List.filterMap_cons_some hName.ofSegment?]
    rfl

theorem Path.exists_segments_join (path : Path) (text : List Char) :
    ∃ front, (path.join ⟨text⟩).segments = front ++ Text.segments '/' text := by
  by_cases hSlash : text.head? = some '/'
  · rw [join_of_slash hSlash]
    exact ⟨[], rfl⟩
  · obtain ⟨front, hLead, hFree, -⟩ := path.exists_terminated_lead
    rw [join_eq hSlash]
    exact ⟨front, segments_mk_lead hLead hFree text⟩

namespace FileTree

/-- The last segment of a plain path to a file is a name. -/
theorem exists_name_of_isFile (hPlain : Glob.hasMagic pattern = false)
    (hFile : tree.isFile (root.join ⟨pattern⟩) = true) :
    ∃ name, pattern = terminated '/' (Glob.plainSegments pattern) ++ name ∧ IsNamed name := by
  obtain ⟨bytes, hNode⟩ := node?_of_isFile hFile
  obtain ⟨front, name, hSegments, hName⟩ := exists_segments_of_file hNode
  obtain ⟨start, hStart⟩ := root.exists_segments_join pattern
  obtain ⟨init, last, hParts⟩ :=
    List.eq_nil_or_concat (segments '/' pattern) |>.resolve_left (segments_ne_nil '/' pattern)
  rw [List.concat_eq_append] at hParts
  rw [hStart, hParts, ← List.append_assoc] at hSegments
  obtain ⟨-, hLast⟩ := List.append_inj' hSegments rfl
  obtain rfl : last = name := (List.cons.inj hLast).1
  refine ⟨last, ?_, hName⟩
  rw [Glob.plainSegments_of_plain hPlain, hParts, List.dropLast_concat]
  exact eq_terminated_append hParts (List.cons_ne_nil last [])

/-- Where the walk for a glob starts, nothing is matched. -/
theorem ne_nil_of_matches {node : Node} (hMagic : Glob.hasMagic pattern = true)
    (hNode : tree.node? (startOfExpansion root pattern) = some node)
    (hWalk : location ∈ node.walk (asksForDots pattern))
    (hMatch : Glob.Matches pattern (walkedText root pattern location)) : location ≠ [] := by
  have hStart := startOfExpansion_of_magic hMagic root
  rw [hStart] at hNode
  by_cases hOpen : Glob.plainSegments pattern = [] ∨ Glob.plainSegments pattern = [[]]
  · obtain ⟨place, hPlace⟩ : ∃ place : Path,
        placeOf root (Glob.plainSegments pattern) = ⟨place.lead⟩ := by
      rcases hOpen with hNone | hSlash
      · exact ⟨root, by rw [hNone, placeOf_nil]⟩
      · refine ⟨⟨['/']⟩, ?_⟩
        rw [hSlash, Path.lead_of_open (.inr rfl)]
        exact Path.join_of_slash rfl
    rw [hPlace] at hNode
    exact ne_nil_of_mem_walk hNode hWalk
  · obtain ⟨hSome, hFilled⟩ := not_or.1 hOpen
    rintro rfl
    have hText : walkedText root pattern []
        = relativeText root (placeOf root (Glob.plainSegments pattern)) := by
      rw [← hStart]
      exact ite_self _
    rw [hText] at hMatch
    exact not_matches_placeOf hSome hFilled (List.append_nil _).symm hMatch

/-- A pattern comes to what it finds. -/
theorem Finds.exists_comesTo (h : tree.Finds root pattern path)
    (hNamed : tree.root.isNamed = true) :
    ∃ passed location, ComesTo root pattern path passed location := by
  have hFree : ∀ segment ∈ Glob.plainSegments pattern, '/' ∉ segment := fun segment =>
    Glob.slash_notMem_of_mem_plainSegments
  cases h with
  | plain hPlain hFile =>
    have hStart : startOfExpansion root pattern = root.join ⟨pattern⟩ := by
      rw [startOfExpansion, if_neg (by simp [hPlain])]
    rw [hStart] at hFile
    obtain ⟨name, hPattern, hName⟩ := exists_name_of_isFile hPlain hFile
    have hPath : startOfExpansion root pattern
        = root.join ⟨terminated '/' (Glob.plainSegments pattern) ++ name⟩ := by
      rw [hStart, ← hPattern]
    refine ⟨Glob.plainSegments pattern, [name], hPath, ?_, hFree, fun segment hMem _ => hMem,
      List.cons_ne_nil name [], by simpa using hName, List.not_mem_nil⟩
    rw [hPath, components_join_terminated hFree hName]
    rfl
  | @walk node location hMagic hNode hWalk hMatch =>
    have hSome := ne_nil_of_matches hMagic hNode hWalk hMatch
    have hNames := Node.isNamed_of_mem_walk (isNamed_of_node? hNamed hNode) hWalk
    obtain ⟨hReached, -⟩ := Node.mem_walk_iff.1 hWalk
    obtain ⟨passed, hLead, hPassed, hSegments⟩ :=
      (Path.mk (baseOf (Glob.plainSegments pattern))).exists_terminated_lead
    rw [startOfExpansion_of_magic hMagic]
    refine ⟨passed, location, ?_, Path.components_descend hNames, hPassed, ?_, hSome, hNames,
      (isReached_iff.1 hReached).1⟩
    · rw [placeOf, ← Path.join_descend, Path.descend_eq hSome hNames, hLead]
    · intro segment hMem hFilled
      refine (mem_segments_baseOf_iff hFree hFilled).1 ?_
      show segment ∈ (Path.mk (baseOf (Glob.plainSegments pattern))).segments
      rcases hSegments with hSame | hMore
      · rwa [hSame]
      · rw [hMore]
        exact List.mem_append_left _ hMem

end FileTree

namespace ComesTo

/-- What a pattern comes to is in a directory of dependencies if and only if its plain segments lead
into one. -/
theorem inDependencies_iff (h : ComesTo root pattern path passed location) :
    InDependencies root path ↔ EntersDependencies root pattern := by
  have hSome : location.map Component.name ≠ [] := mt List.map_eq_nil_iff.1 h.filled
  have hSpared : Component.name dependencyDirectory ∉ (location.map Component.name).dropLast := by
    rw [← List.map_dropLast, List.mem_map]
    rintro ⟨name, hMem, hName⟩
    rw [Component.name.inj hName] at hMem
    exact h.spared hMem
  constructor
  · rintro ⟨rest, hRest, hMem⟩
    rw [h.means] at hRest
    rcases List.append_eq_append_iff.1 hRest with ⟨more, -, hBehind⟩ | ⟨more, hPlace, rfl⟩
    · -- the place is not behind the root, so all that is behind the root is walked
      refine absurd ?_ hSpared
      have hFilled : rest ≠ [] := List.ne_nil_of_mem (List.mem_of_mem_dropLast hMem)
      rw [hBehind, List.dropLast_append_of_ne_nil hFilled]
      exact List.mem_append_right _ hMem
    · refine ⟨more, hPlace, ?_⟩
      rw [List.dropLast_append_of_ne_nil hSome] at hMem
      exact (List.mem_append.1 hMem).resolve_right hSpared
  · rintro ⟨more, hPlace, hMem⟩
    refine ⟨more ++ location.map Component.name, ?_, ?_⟩
    · rw [h.means, hPlace, List.append_assoc]
    · rw [List.dropLast_append_of_ne_nil hSome]
      exact List.mem_append_left _ hMem

/-- Where the pattern comes to without links, the names of directories start with names of the
location of the root, and all others are passed or gone on by. -/
theorem exists_dropLast (h : ComesTo root pattern path passed location) (hInside : inside ≠ [])
    (hRoot : tree.follow FileTree.linkLimit (tree.startOf root) root.segments = .ok base)
    (hPath : tree.follow 0 (tree.startOf path) path.segments = .ok (base ++ inside)) :
    ∃ n names, base ++ inside.dropLast = base.take n ++ names ∧
      names ⊆ passed ++ location.dropLast := by
  have hSegments : segments '/' (terminated '/' passed ++ joined '/' location)
      = (passed ++ location.dropLast) ++ [location.getLast h.filled] := by
    rw [segments_terminated h.free, segments_joined h.filled fun name hMem => (h.named name hMem).2,
      List.append_assoc, List.dropLast_concat_getLast]
  have hLast : IsNamed (location.getLast h.filled) := h.named _ (List.getLast_mem h.filled)
  have hAbsolute := Path.isAbsolute_join root ⟨terminated '/' passed ++ joined '/' location⟩
  rw [← h.joins] at hAbsolute
  rw [← List.dropLast_append_of_ne_nil hInside]
  by_cases hSlash : (terminated '/' passed ++ joined '/' location).head? = some '/'
  · have hFrom : tree.startOf path = [] := by
      rw [FileTree.startOf, if_pos]
      rw [hAbsolute, Path.isAbsolute_mk_iff.2 hSlash, Bool.true_or]
    rw [hFrom, h.joins, Path.join_of_slash hSlash, Path.segments, hSegments] at hPath
    obtain ⟨n, names, hNames, hSubset⟩ := FileTree.exists_dropLast_of_follow hPath hLast
    rw [List.take_nil] at hNames
    exact ⟨0, names, hNames, hSubset⟩
  · have hFrom : tree.startOf path = tree.startOf root := by
      rw [FileTree.startOf, FileTree.startOf, hAbsolute,
        Bool.eq_false_iff.2 (mt Path.isAbsolute_mk_iff.1 hSlash), Bool.false_or]
    obtain ⟨front, hLead, hFree, hFront⟩ := root.exists_terminated_lead
    rw [hFrom, h.joins, Path.join_eq hSlash, Path.segments_mk_lead hLead hFree, hSegments] at hPath
    obtain ⟨between, hBetween, -⟩ := FileTree.exists_between hPath
    -- no link is on the way to the root either
    obtain rfl := FileTree.eq_of_follow hRoot hFront (hBetween _)
    rw [hBetween] at hPath
    exact FileTree.exists_dropLast_of_follow hPath hLast

/-- A directory of dependencies that is on the way without links is named in the plain segments. -/
theorem mem_plainSegments (h : ComesTo root pattern path passed location)
    (hRoot : tree.follow FileTree.linkLimit (tree.startOf root) root.segments = .ok base)
    (hPath : tree.follow 0 (tree.startOf path) path.segments = .ok (base ++ inside))
    (hMem : dependencyDirectory ∈ inside.dropLast) :
    dependencyDirectory ∈ Glob.plainSegments pattern := by
  have hInside : inside ≠ [] := List.ne_nil_of_mem (List.mem_of_mem_dropLast hMem)
  obtain ⟨n, names, hNames, hSubset⟩ := h.exists_dropLast hInside hRoot hPath
  have hBehind : base.drop n ++ inside.dropLast = names := by
    rw [← List.take_append_drop n base, List.append_assoc, List.take_append_drop] at hNames
    exact List.append_cancel_left hNames
  have hName : dependencyDirectory ∈ passed ++ location.dropLast := by
    refine hSubset ?_
    rw [← hBehind]
    exact List.mem_append_right _ hMem
  exact h.plain _ ((List.mem_append.1 hName).resolve_right h.spared)
    isNamed_dependencyDirectory.ne_nil

end ComesTo

-- ---------------------------------------------------------------------------
-- Runs
-- ---------------------------------------------------------------------------

variable {patterns : List (List Char)} {unlisted : Unlisted} {dryRun : Bool} {report : Report}

namespace FileTree

/-- What a run reports is found by one of its patterns. -/
theorem exists_finds_of_mem_reports
    (h : report ∈ (run tree root patterns dryRun unlisted).reports) :
    ∃ pattern ∈ patterns, tree.Finds root (plainForm pattern) report.file := by
  obtain ⟨pattern, hPattern, found, hExpand, hFile⟩ := exists_of_mem_reports h
  exact ⟨pattern, hPattern, ((mem_expand_iff hExpand).1 hFile).1⟩

/-- What holds something else after a run has been written. -/
theorem exists_writes (h : (run tree root patterns dryRun unlisted).tree.bytes? location
      ≠ tree.bytes? location) :
    ∃ report ∈ (run tree root patterns dryRun unlisted).reports, report.Writes tree location := by
  obtain ⟨hProcessed, -⟩ := run_cases tree root patterns dryRun unlisted
  by_contra hNone
  refine h (processAll_bytes? hProcessed fun report hMem hWrites => ?_)
  exact hNone ⟨report, hMem, hWrites⟩

end FileTree

/-- Directories of dependencies are touched only where the plain segments of a pattern lead into
them. -/
structure SparesDependencies (tree : FileTree) (root : Path) (patterns : List (List Char))
    (unlisted : Unlisted) (outcome : Outcome) : Prop where
  /-- If the plain segments of a pattern lead into a directory of dependencies, all that the pattern
  stands for is in there, and if not, nothing is. -/
  expanded : ∀ pattern paths, tree.expand root pattern unlisted = .ok paths →
    ∀ path ∈ paths, InDependencies root path ↔ EntersDependencies root (plainForm pattern)
  /-- If a file in such a directory is reported, it is found by a pattern whose plain segments lead
  into one. -/
  reported : ∀ report ∈ outcome.reports, InDependencies root report.file →
    ∃ pattern ∈ patterns, tree.Finds root (plainForm pattern) report.file ∧
      EntersDependencies root (plainForm pattern)
  /-- If a file below such a directory holds something else in the end, it has been written. It is
  found by a pattern that names the directory in its plain segments, or there are links on the way
  to it. -/
  changed : ∀ base inside,
    tree.follow FileTree.linkLimit (tree.startOf root) root.segments = .ok base →
    dependencyDirectory ∈ inside.dropLast →
    outcome.tree.bytes? (base ++ inside) ≠ tree.bytes? (base ++ inside) →
    ∃ report ∈ outcome.reports, report.Writes tree (base ++ inside) ∧
      ((∃ pattern ∈ patterns, tree.Finds root (plainForm pattern) report.file ∧
          dependencyDirectory ∈ Glob.plainSegments (plainForm pattern)) ∨
        tree.follow 0 (tree.startOf report.file) report.file.segments ≠ .ok (base ++ inside))

/-- **Dependencies are spared.** A pattern stands for files in directories of dependencies if and
only if its plain segments, where its walk starts or which are the whole of it, lead into such a
directory, and then for no other files. Only by such patterns are these files reported, and one
that holds something else in the end has been found by a pattern that names the directory in its
plain segments, or by a path with links on the way.

`hNamed` says that all names in the tree are names in paths: not empty, no dot or two dots,
without slashes. The root, the patterns and the directories that cannot be listed are arbitrary,
and the run may end early. -/
theorem run_sparesDependencies (hNamed : tree.root.isNamed = true) (root : Path)
    (patterns : List (List Char)) (dryRun : Bool) (unlisted : Unlisted) :
    SparesDependencies tree root patterns unlisted (run tree root patterns dryRun unlisted) := by
  refine ⟨?_, ?_, ?_⟩
  · intro pattern paths hExpand path hMem
    obtain ⟨hFinds, -⟩ := (FileTree.mem_expand_iff hExpand).1 hMem
    obtain ⟨passed, location, hComes⟩ := hFinds.exists_comesTo hNamed
    exact hComes.inDependencies_iff
  · intro report hMem hInside
    obtain ⟨pattern, hPattern, hFinds⟩ := FileTree.exists_finds_of_mem_reports hMem
    obtain ⟨passed, location, hComes⟩ := hFinds.exists_comesTo hNamed
    exact ⟨pattern, hPattern, hFinds, hComes.inDependencies_iff.1 hInside⟩
  · intro base inside hRoot hInside hDifferent
    obtain ⟨report, hMem, hWrites⟩ := FileTree.exists_writes hDifferent
    refine ⟨report, hMem, hWrites, ?_⟩
    by_cases hDirect :
        tree.follow 0 (tree.startOf report.file) report.file.segments = .ok (base ++ inside)
    · left
      obtain ⟨pattern, hPattern, hFinds⟩ := FileTree.exists_finds_of_mem_reports hMem
      obtain ⟨passed, location, hComes⟩ := hFinds.exists_comesTo hNamed
      exact ⟨pattern, hPattern, hFinds, hComes.mem_plainSegments hRoot hDirect hInside⟩
    · exact .inr hDirect

-- ---------------------------------------------------------------------------
-- A walk that starts in a directory of dependencies
-- ---------------------------------------------------------------------------

/-- A directory of dependencies with a file in it. -/
def dependenciesTree : FileTree :=
  ⟨.directory (.entry dependencyDirectory
    (.directory (.entry "a.ts".toList (.file typesText.toUTF8) .none)) .none), []⟩

/-- A glob for the files in the directory. -/
def dependenciesGlob : List Char := "node_modules/*.ts".toList

theorem node?_dependenciesTree :
    dependenciesTree.node? ⟨"./node_modules".toList⟩
      = some (.directory (.entry "a.ts".toList (.file typesText.toUTF8) .none)) := by
  have hResolve : dependenciesTree.resolve ⟨"./node_modules".toList⟩
      = .ok [dependencyDirectory] := by
    rw [FileTree.resolve_of_short (by decide) (by decide) (by decide)]
    calc dependenciesTree.follow _ [] [['.'], dependencyDirectory]
        = dependenciesTree.follow _ [] [dependencyDirectory] := FileTree.follow_dot rfl
      _ = dependenciesTree.follow _ [dependencyDirectory] [] :=
          FileTree.follow_node rfl (by decide) rfl fun _ => Node.noConfusion
      _ = .ok [dependencyDirectory] := FileTree.follow_nil
  rw [FileTree.node?, hResolve]
  rfl

theorem resolve_dependenciesTree :
    dependenciesTree.resolve ⟨"./node_modules/a.ts".toList⟩
      = .ok [dependencyDirectory, "a.ts".toList] := by
  rw [FileTree.resolve_of_short (by decide) (by decide) (by decide)]
  calc dependenciesTree.follow _ [] [['.'], dependencyDirectory, "a.ts".toList]
      = dependenciesTree.follow _ [] [dependencyDirectory, "a.ts".toList] := FileTree.follow_dot rfl
    _ = dependenciesTree.follow _ [dependencyDirectory] ["a.ts".toList] :=
        FileTree.follow_node rfl (by decide) rfl fun _ => Node.noConfusion
    _ = dependenciesTree.follow _ [dependencyDirectory, "a.ts".toList] [] :=
        FileTree.follow_file rfl (by decide) rfl
    _ = .ok [dependencyDirectory, "a.ts".toList] := FileTree.follow_nil

theorem read_dependenciesTree :
    dependenciesTree.read ⟨"./node_modules/a.ts".toList⟩ = .ok typesText :=
  FileTree.read_of_file resolve_dependenciesTree rfl

/-- What the glob is read as. -/
def dependenciesTokens : List Glob.Token :=
  "node_modules/".toList.map .literal ++ .anyText :: ".ts".toList.map .literal

/-- The walk starts in the directory, so it finds the file. -/
theorem expand_dependenciesTree :
    dependenciesTree.expand here dependenciesGlob = .ok [⟨"./node_modules/a.ts".toList⟩] := by
  have hBehind :
      Glob.Behind [] [dependencyDirectory] dependenciesGlob ⟨[dependenciesTokens]⟩ :=
    ⟨isBase_nil, by decide, by decide, by decide, by decide, by cbv⟩
  have hStart : startOfExpansion here dependenciesGlob = ⟨"./node_modules".toList⟩ := by decide
  have hText : relativeText here ⟨"./node_modules/a.ts".toList⟩ = "node_modules/a.ts".toList := by
    decide
  have hWanted : FileTree.isWanted dependenciesGlob ⟨[dependenciesTokens]⟩ ["a.ts".toList]
      (relativeText here ⟨"./node_modules/a.ts".toList⟩) = true := by
    rw [hText]
    cbv
  have hFound : FileTree.matched here dependenciesGlob ⟨[dependenciesTokens]⟩
      (.directory (.entry "a.ts".toList (.file typesText.toUTF8) .none))
        = [⟨"./node_modules/a.ts".toList⟩] := by
    rw [FileTree.matched, hStart]
    exact List.filterMap_cons_some (if_pos hWanted)
  rw [FileTree.expand_of_glob hBehind, hStart, node?_dependenciesTree, Option.elim_some, hFound,
    List.mergeSort_singleton]

/-- A run over what the glob stands for has the file in the directory written. -/
theorem run_dependenciesTree :
    ∃ report ∈ (run dependenciesTree here [dependenciesGlob] false).reports,
      report.Writes dependenciesTree [dependencyDirectory, "a.ts".toList] ∧
        InDependencies here report.file := by
  have hChanges : relocate typesText "./node_modules/a.ts" ≠ typesText := by
    rw [relocate_eq_foldl]
    decide +kernel
  have hProcess := FileTree.process_of_read read_dependenciesTree false
  have hReports : (run dependenciesTree here [dependenciesGlob] false).reports
      = [(processed dependenciesTree false ⟨"./node_modules/a.ts".toList⟩ typesText).1] := by
    simp only [run, visitPatterns, Progress.start, visitAll, Progress.visit, List.contains_nil,
      Bool.false_eq_true, if_false, Except.map, expand_dependenciesTree, hProcess]
    rfl
  rw [hReports]
  refine ⟨_, List.mem_cons_self, ⟨?_, resolve_dependenciesTree⟩,
    [.name dependencyDirectory, .name "a.ts".toList], by decide, by decide⟩
  show (relocate typesText "./node_modules/a.ts" != typesText && !false) = true
  rw [bne_iff_ne.2 hChanges]
  rfl

/-- In the tree directories of dependencies are touched only where plain segments lead into them. -/
theorem sparesDependencies_dependenciesTree :
    dependenciesTree.root.isNamed = true ∧
      SparesDependencies dependenciesTree here [dependenciesGlob] allListed
        (run dependenciesTree here [dependenciesGlob] false) :=
  have hNamed : dependenciesTree.root.isNamed = true := by decide
  ⟨hNamed, run_sparesDependencies hNamed here [dependenciesGlob] false allListed⟩

/-- Not every directory of dependencies is left alone: a glob that names one in its plain
segments has its walk start there, and what the walk starts at is visited whatever its name is. -/
theorem not_forall_not_inDependencies :
    ¬∀ (tree : FileTree) (root : Path) (patterns : List (List Char)) (dryRun : Bool)
      (unlisted : Unlisted), tree.root.isNamed = true →
        (∀ pattern paths, tree.expand root pattern unlisted = .ok paths →
          ∀ path ∈ paths, ¬InDependencies root path) ∧
          ∀ report ∈ (run tree root patterns dryRun unlisted).reports,
            ¬InDependencies root report.file := by
  intro h
  obtain ⟨-, hReported⟩ := h dependenciesTree here [dependenciesGlob] false allListed (by decide)
  obtain ⟨report, hMem, -, hInside⟩ := run_dependenciesTree
  exact hReported report hMem hInside

end Relocation

import Relocation.Proofs.EarlyEnd
import Relocation.Proofs.FileNames
import Relocation.Proofs.WalkBases
import Relocation.Proofs.WholeSegments

/-!
# What is left out

Files with type declarations only are to be left alone. They are left out by a glob for their
ending, and that glob is matched like any other: none of its wildcards stands for a dot at the start
of a segment. So it leaves a file alone only if no segment on the way to it starts with a dot, and
nothing in front of the ending does. Two dots are such a segment, so a file need not have a name of
that kind to be found and processed: a detour is enough.

## Results

* `isLeftOut_iff`: the texts that are left out;
* `FileTree.Finds`, `FileTree.mem_expand_iff`: what a pattern stands for is what it finds and what
  is not left out;
* `FileTree.Finds.isDeclaration_iff`: what is held against the ending has it just when the name
  of the file has it;
* `run_sparesDeclarations`: of files with type declarations only those that are hidden are touched;
* `not_forall_not_isDeclaration`: some are.
-/

namespace Relocation

open Text

variable {tree : FileTree} {root path : Path} {paths : List Path} {pattern text : List Char}
  {front : List (List Char)} {last ending : List Char} {glob : Glob} {location : Location}

-- ---------------------------------------------------------------------------
-- Endings
-- ---------------------------------------------------------------------------

/-- The ending of files with type declarations only. -/
def declarationEnding : List Char := ".d.ts".toList

theorem slash_notMem_declarationEnding : '/' ∉ declarationEnding := by decide

/-- An ending without slashes is the ending of the last segment. -/
theorem suffix_of_suffix_terminated (h : ending <:+ terminated '/' front ++ last)
    (hFree : '/' ∉ ending) : ending <:+ last := by
  rcases List.suffix_or_suffix_of_suffix h (List.suffix_append _ last) with hHere | hMore
  · exact hHere
  · obtain ⟨more, rfl⟩ := hMore
    -- what is in front of the last segment ends with a slash
    have hFront : more <:+ terminated '/' front := by
      obtain ⟨rest, hRest⟩ := h
      rw [← List.append_assoc] at hRest
      exact ⟨rest, List.append_cancel_right hRest⟩
    by_cases hMore : more = []
    · rw [hMore]
      exact List.suffix_refl _
    · have hLast : (terminated '/' front).getLast? = more.getLast? := by
        obtain ⟨rest, hRest⟩ := hFront
        rw [← hRest, List.getLast?_append_of_ne_nil rest hMore]
      rcases terminated_eq_nil_or '/' front with hNil | hSlash
      · rw [hNil] at hFront
        exact absurd (List.suffix_nil.1 hFront) hMore
      · rw [hLast] at hSlash
        exact absurd (List.mem_append_left _ (List.mem_of_getLast? hSlash)) hFree

/-- What the text names is hidden from the glob for the ending: a segment on the way there starts
with a dot, and two dots are such a segment, or what is in front of the ending does. -/
def IsHidden (text : List Char) : Prop :=
  (∃ segment ∈ (segments '/' text).dropLast, segment.head? = some '.') ∨
    ∃ stem, (segments '/' text).getLast? = some (stem ++ declarationEnding) ∧
      stem.head? = some '.'

theorem isHidden_iff (h : segments '/' text = front ++ [last]) :
    IsHidden text ↔ (∃ segment ∈ front, segment.head? = some '.') ∨
      ∃ stem, last = stem ++ declarationEnding ∧ stem.head? = some '.' := by
  rw [IsHidden, h, List.dropLast_concat, List.getLast?_concat]
  simp only [Option.some.injEq]

/-- Whole segments that do not start with a dot are passed over, and so is what is in front of the
ending. -/
theorem isLeftOut_iff_exists :
    isLeftOut text = true ↔ ∃ front stem, segments '/' text = front ++ [stem ++ declarationEnding] ∧
      (∀ segment ∈ front, segment.head? ≠ some '.') ∧ stem.head? ≠ some '.' := by
  have hTokens : isLeftOut text
      = Glob.matchesFrom true (.anySegments :: .anyText :: declarationEnding.map .literal) text :=
    Bool.or_false _
  have hEnd : Glob.matchesFrom false (.anyText :: declarationEnding.map .literal) [] = false := by
    refine Bool.eq_false_iff.2 fun hMatch => ?_
    obtain ⟨stem, hNil, -⟩ := Glob.matchesFrom_anyText_iff.1 hMatch
    exact absurd (List.append_eq_nil_iff.1 hNil.symm).2 (by decide)
  have hFree : ∀ segment ∈ segments '/' text, '/' ∉ segment := fun segment =>
    separator_notMem_of_mem_segments
  have hAll := Glob.matchesFrom_anySegments_iff hEnd (segments_ne_nil '/' text) hFree
  rw [joined_segments] at hAll
  rw [hTokens, hAll]
  constructor
  · rintro ⟨front, behind, hParts, hSome, hFront, hMatch⟩
    obtain ⟨stem, hText, hStem, hShown⟩ := Glob.matchesFrom_anyText_iff.1 hMatch
    refine ⟨front, stem, ?_, hFront, hShown rfl⟩
    have hOne : '/' ∉ stem ++ declarationEnding := fun hMem =>
      (List.mem_append.1 hMem).elim hStem slash_notMem_declarationEnding
    rw [hParts, ← segments_of_notMem hOne, ← hText, segments_joined hSome]
    intro segment hMem
    refine hFree segment ?_
    rw [hParts]
    exact List.mem_append_right _ hMem
  · rintro ⟨front, stem, hParts, hFront, hShown⟩
    refine ⟨front, [stem ++ declarationEnding], hParts, List.cons_ne_nil _ _, hFront, ?_⟩
    refine Glob.matchesFrom_anyText_iff.2 ⟨stem, rfl, fun hMem => ?_, fun _ => hShown⟩
    refine hFree (stem ++ declarationEnding) ?_ (List.mem_append_left _ hMem)
    rw [hParts]
    exact List.mem_append_right _ List.mem_cons_self

/-- What has the ending is left out, unless it is hidden. -/
theorem isLeftOut_iff :
    isLeftOut text = true ↔ declarationEnding <:+ text ∧ ¬IsHidden text := by
  rw [isLeftOut_iff_exists]
  constructor
  · rintro ⟨front, stem, hParts, hFront, hShown⟩
    rw [isHidden_iff hParts]
    refine ⟨?_, ?_⟩
    · rw [eq_terminated_append hParts (List.cons_ne_nil _ _)]
      exact (List.suffix_append stem _).trans (List.suffix_append _ _)
    · rintro (⟨segment, hMem, hDot⟩ | ⟨other, hSame, hDot⟩)
      · exact hFront segment hMem hDot
      · rw [← List.append_cancel_right hSame] at hDot
        exact hShown hDot
  · rintro ⟨hEnding, hShown⟩
    obtain ⟨front, last, hParts⟩ :=
      List.eq_nil_or_concat (segments '/' text) |>.resolve_left (segments_ne_nil '/' text)
    rw [List.concat_eq_append] at hParts
    rw [eq_terminated_append hParts (List.cons_ne_nil _ _)] at hEnding
    obtain ⟨stem, rfl⟩ := suffix_of_suffix_terminated hEnding slash_notMem_declarationEnding
    rw [isHidden_iff hParts, not_or] at hShown
    obtain ⟨hFront, hStem⟩ := hShown
    exact ⟨front, stem, hParts, fun segment hMem hDot => hFront ⟨segment, hMem, hDot⟩,
      fun hDot => hStem ⟨stem, rfl, hDot⟩⟩

-- ---------------------------------------------------------------------------
-- What patterns find
-- ---------------------------------------------------------------------------

/-- The path names a file with type declarations only. -/
def Path.IsDeclaration (path : Path) : Prop :=
  ∃ name, path.fileName? = some name ∧ declarationEnding <:+ name

/-- What is held against the ending: a plain path as it is written, and of a path that a glob finds
what is left behind the root. -/
def checkedText (root : Path) (pattern : List Char) (path : Path) : List Char :=
  if Glob.hasMagic pattern then relativeText root path else pattern

/-- What is held against a glob: what is left behind the root of the path that the walk comes to,
or the name of the file alone. -/
def walkedText (root : Path) (pattern : List Char) (location : Location) : List Char :=
  let relative := relativeText root ((startOfExpansion root pattern).descend location)
  if matchesNames pattern then (location.getLast?.map withSlashes).getD relative else relative

/-- The pattern finds the path, whether that is left out or not. -/
inductive FileTree.Finds (tree : FileTree) (root : Path) (pattern : List Char) : Path → Prop where
  /-- A plain path leads to a file. -/
  | plain (hPlain : Glob.hasMagic pattern = false)
      (hFile : tree.isFile (startOfExpansion root pattern) = true) :
      Finds tree root pattern (startOfExpansion root pattern)
  /-- The walk for a glob comes to a file that the glob matches. -/
  | walk {node : Node} {location : Location} (hMagic : Glob.hasMagic pattern = true)
      (hNode : tree.node? (startOfExpansion root pattern) = some node)
      (hWalk : location ∈ node.walk (asksForDots pattern))
      (hMatch : Glob.Matches pattern (walkedText root pattern location)) :
      Finds tree root pattern ((startOfExpansion root pattern).descend location)

namespace FileTree

variable {unlisted : Unlisted}

/-- A plain path finds the file that it leads to. -/
theorem finds_iff_of_plain (hPlain : Glob.hasMagic pattern = false) :
    tree.Finds root pattern path ↔ path = startOfExpansion root pattern ∧
      tree.isFile (startOfExpansion root pattern) = true := by
  constructor
  · intro hFinds
    cases hFinds with
    | plain _ hFile => exact ⟨rfl, hFile⟩
    | walk hMagic =>
      rw [hPlain] at hMagic
      contradiction
  · rintro ⟨rfl, hFile⟩
    exact .plain hPlain hFile

/-- A glob finds what the walk comes to and what it matches. -/
theorem finds_iff_of_glob (hMagic : Glob.hasMagic pattern = true) :
    tree.Finds root pattern path ↔ ∃ node, tree.node? (startOfExpansion root pattern) = some node ∧
      ∃ location ∈ node.walk (asksForDots pattern),
        Glob.Matches pattern (walkedText root pattern location) ∧
          path = (startOfExpansion root pattern).descend location := by
  constructor
  · intro hFinds
    cases hFinds with
    | plain hPlain =>
      rw [hMagic] at hPlain
      contradiction
    | @walk node location _ hNode hWalk hMatch => exact ⟨node, hNode, location, hWalk, hMatch, rfl⟩
  · rintro ⟨node, hNode, location, hWalk, hMatch, rfl⟩
    exact .walk hMagic hNode hWalk hMatch

theorem mem_matched_iff_matches {node : Node} (hRead : Glob.ofText pattern = .ok glob) :
    path ∈ matched root pattern glob node ↔
      (∃ location ∈ node.walk (asksForDots pattern),
        Glob.Matches pattern (walkedText root pattern location) ∧
          path = (startOfExpansion root pattern).descend location) ∧
        isLeftOut (relativeText root path) = false := by
  have hWanted (location : Location) :
      isWanted pattern glob location
          (relativeText root ((startOfExpansion root pattern).descend location)) = true ↔
        Glob.Matches pattern (walkedText root pattern location) ∧
          isLeftOut (relativeText root ((startOfExpansion root pattern).descend location))
            = false := by
    rw [isWanted, Bool.and_eq_true, Glob.isMatch_iff hRead, Bool.not_eq_true']
    rfl
  rw [mem_matched_iff]
  simp only [hWanted]
  constructor
  · rintro ⟨location, hWalk, ⟨hMatch, hKept⟩, rfl⟩
    exact ⟨⟨location, hWalk, hMatch, rfl⟩, hKept⟩
  · rintro ⟨⟨location, hWalk, hMatch, rfl⟩, hKept⟩
    exact ⟨location, hWalk, ⟨hMatch, hKept⟩, rfl⟩

/-- A glob stands for what the walk finds, unless the walk starts nowhere. -/
theorem mem_expandGlob_iff (h : tree.expandGlob root pattern glob unlisted = .ok paths) :
    path ∈ paths ↔ ∃ node, tree.node? (startOfExpansion root pattern) = some node ∧
      path ∈ matched root pattern glob node := by
  rw [expandGlob] at h
  dsimp only at h
  split at h
  · rename_i hNowhere
    rw [← Except.ok.inj h, hNowhere]
    simp
  · rename_i node hNode
    split at h
    · contradiction
    · rw [← Except.ok.inj h, List.mem_mergeSort, hNode]
      constructor
      · exact fun hMem => ⟨node, rfl, hMem⟩
      · rintro ⟨other, hOther, hMem⟩
        rwa [Option.some.inj hOther]

/-- A pattern stands for what it finds and what is not left out. -/
theorem mem_expand_iff (h : tree.expand root pattern unlisted = .ok paths) :
    path ∈ paths ↔ tree.Finds root (plainForm pattern) path ∧
      isLeftOut (checkedText root (plainForm pattern) path) = false := by
  rw [expand] at h
  generalize plainForm pattern = pattern at h ⊢
  dsimp only at h
  split at h
  · rename_i hMagic
    rw [checkedText, if_pos hMagic, finds_iff_of_glob hMagic]
    split at h
    · rename_i glob hRead
      rw [mem_expandGlob_iff h]
      simp only [mem_matched_iff_matches hRead]
      constructor
      · rintro ⟨node, hNode, hFound, hKept⟩
        exact ⟨⟨node, hNode, hFound⟩, hKept⟩
      · rintro ⟨⟨node, hNode, hFound⟩, hKept⟩
        exact ⟨node, hNode, hFound, hKept⟩
    · contradiction
  · rename_i hPlain
    rw [checkedText, if_neg hPlain, finds_iff_of_plain (Bool.not_eq_true _ ▸ hPlain),
      ← Except.ok.inj h]
    split
    · rename_i hBoth
      rw [Bool.and_eq_true, Bool.not_eq_true'] at hBoth
      rw [List.mem_singleton, and_iff_left hBoth.1, and_iff_left hBoth.2]
    · rename_i hNot
      rw [Bool.and_eq_true, Bool.not_eq_true'] at hNot
      refine iff_of_false List.not_mem_nil ?_
      rintro ⟨⟨-, hFile⟩, hKept⟩
      exact hNot ⟨hFile, hKept⟩

end FileTree

-- ---------------------------------------------------------------------------
-- Endings of names
-- ---------------------------------------------------------------------------

theorem isDeclaration_iff (h : path.segments = front ++ [last]) (hName : IsNamed last) :
    path.IsDeclaration ↔ declarationEnding <:+ path.text := by
  have hText : path.text = terminated '/' front ++ last :=
    eq_terminated_append h (List.cons_ne_nil last [])
  rw [Path.IsDeclaration, Path.fileName?_of_segments h hName, hText]
  constructor
  · rintro ⟨name, hSame, hEnding⟩
    obtain rfl := Option.some.inj hSame
    exact hEnding.trans (List.suffix_append _ _)
  · intro hEnding
    exact ⟨last, rfl, suffix_of_suffix_terminated hEnding slash_notMem_declarationEnding⟩

theorem suffix_withSlashes_iff :
    declarationEnding <:+ withSlashes text ↔ declarationEnding <:+ text := by
  constructor
  · intro h
    obtain ⟨ending, hEnding, hSame⟩ := List.suffix_map_iff.1 h
    have hFree : '\\' ∉ ending := by
      intro hMem
      have hSlash : '/' ∈ withSlashes ending := List.mem_map.2 ⟨'\\', hMem, if_pos rfl⟩
      refine slash_notMem_declarationEnding ?_
      rwa [hSame]
    rwa [hSame, show ending.map _ = withSlashes ending from rfl, withSlashes_of_notMem hFree]
  · intro h
    rw [← withSlashes_of_notMem (by decide : '\\' ∉ declarationEnding)]
    exact h.map _

/-- A glob that matches nothing at all has nothing in front of it. -/
theorem Glob.Matches.plainSegments_eq_nil (h : Glob.Matches pattern []) :
    Glob.plainSegments pattern = [] := by
  obtain ⟨rest, hRest⟩ := h.exists_eq_terminated
  have hNil : terminated '/' (Glob.plainSegments pattern) = [] :=
    (List.append_eq_nil_iff.1 hRest.symm).1
  cases hParts : Glob.plainSegments pattern with
  | nil => rfl
  | cons segment others => simp [hParts, terminated_cons] at hNil

namespace FileTree

theorem node?_of_isFile (h : tree.isFile path = true) :
    ∃ bytes, tree.node? path = some (.file bytes) := by
  unfold isFile at h
  split at h
  · rename_i bytes hNode
    exact ⟨bytes, hNode⟩
  · contradiction

/-- What a pattern finds is named by its last segment. -/
theorem Finds.exists_segments (h : tree.Finds root pattern path)
    (hNamed : tree.root.isNamed = true) :
    ∃ front name, path.segments = front ++ [name] ∧ IsNamed name := by
  cases h with
  | plain _ hFile =>
    obtain ⟨bytes, hNode⟩ := node?_of_isFile hFile
    exact exists_segments_of_file hNode
  | @walk node location _ hNode hWalk _ =>
    have hNames := Node.isNamed_of_mem_walk (isNamed_of_node? hNamed hNode) hWalk
    rcases List.eq_nil_or_concat location with rfl | ⟨init, name, rfl⟩
    · -- the walk starts at the file
      obtain ⟨bytes, rfl⟩ := Node.eq_file_of_nil_mem_walk hWalk
      exact exists_segments_of_file hNode
    · rw [List.concat_eq_append] at hNames ⊢
      have hSome : init ++ [name] ≠ [] := by simp
      obtain ⟨front, hLead, hFree, -⟩ := (startOfExpansion root pattern).exists_terminated_lead
      refine ⟨front ++ init, name, ?_, hNames name (by simp)⟩
      rw [Path.descend_eq hSome hNames, Path.segments_mk_lead hLead hFree,
        segments_joined hSome fun other hMem => (hNames other hMem).2, List.append_assoc]

/-- What the walk for a glob finds is not the root itself: something is left behind it. -/
theorem relativeTo?_ne_nil {node : Node} (hNamed : tree.root.isNamed = true)
    (hMagic : Glob.hasMagic pattern = true)
    (hNode : tree.node? (startOfExpansion root pattern) = some node)
    (hWalk : location ∈ node.walk (asksForDots pattern))
    (hMatch : Glob.Matches pattern (walkedText root pattern location)) :
    ((startOfExpansion root pattern).descend location).relativeTo? root ≠ some [] := by
  intro hLeft
  have hNames := Node.isNamed_of_mem_walk (isNamed_of_node? hNamed hNode) hWalk
  -- nothing is left, so nothing stands in front of the glob
  have hPlain : Glob.plainSegments pattern = [] := by
    by_cases hSlash : '/' ∈ pattern
    · have hRelative : matchesNames pattern = false := by simp [matchesNames, hSlash]
      rw [walkedText, hRelative, relativeText, hLeft] at hMatch
      exact hMatch.plainSegments_eq_nil
    · rw [Glob.plainSegments, segments_of_notMem hSlash]
      rfl
  have hStart : startOfExpansion root pattern = ⟨root.lead⟩ := by
    rw [startOfExpansion_of_magic hMagic, hPlain]
    exact placeOf_nil root
  rw [hStart] at hNode hLeft
  have hSome := ne_nil_of_mem_walk hNode hWalk
  rw [Path.relativeTo?_descend_lead root hSome hNames] at hLeft
  refine joined_ne_nil hSome ?_ (Option.some.inj hLeft)
  rintro rfl
  exact (hNames [] List.mem_cons_self).ne_nil rfl

/-- A pattern finds a file with type declarations only if what is held against the ending has it. -/
theorem Finds.isDeclaration_iff (h : tree.Finds root pattern path)
    (hNamed : tree.root.isNamed = true) :
    path.IsDeclaration ↔ declarationEnding <:+ checkedText root pattern path := by
  obtain ⟨front, name, hSegments, hName⟩ := h.exists_segments hNamed
  rw [Relocation.isDeclaration_iff hSegments hName, checkedText]
  cases h with
  | plain hPlain =>
    rw [if_neg (by simp [hPlain]), startOfExpansion, if_neg (by simp [hPlain])]
    by_cases hRoot : pattern.head? = some '/'
    · rw [Path.join_of_slash hRoot]
    · rw [Path.join_eq hRoot]
      obtain ⟨all, hLead, -⟩ := root.exists_terminated_lead
      rw [hLead]
      exact ⟨fun hEnding => suffix_of_suffix_terminated hEnding slash_notMem_declarationEnding,
        fun hEnding => hEnding.trans (List.suffix_append _ _)⟩
  | @walk node location hMagic hNode hWalk hMatch =>
    have hSome := relativeTo?_ne_nil hNamed hMagic hNode hWalk hMatch
    generalize (startOfExpansion root pattern).descend location = path at hSome hSegments ⊢
    rw [if_pos hMagic, relativeText, suffix_withSlashes_iff]
    cases hLeft : path.relativeTo? root with
    | none => rfl
    | some rest =>
      rcases Path.relativeTo?_cases hLeft with rfl | ⟨start, left, hParts, rfl, -⟩
      · rfl
      · refine ⟨fun hEnding => ?_, fun hEnding => hEnding.trans (Path.suffix_of_relativeTo? hLeft)⟩
        obtain ⟨init, last, rfl⟩ := List.eq_nil_or_concat left |>.resolve_left (by
          rintro rfl
          exact hSome hLeft)
        rw [List.concat_eq_append] at hParts ⊢
        have hOne : [last] ≠ [] := List.cons_ne_nil last []
        rw [Option.getD_some, joined_append '/' init hOne]
        refine List.IsSuffix.trans ?_ (List.suffix_append _ _)
        rw [eq_terminated_append (hParts.trans (List.append_assoc ..).symm) hOne] at hEnding
        exact suffix_of_suffix_terminated hEnding slash_notMem_declarationEnding

/-- A pattern stands for what it finds, but of files with type declarations only for those that
are hidden. `hNamed` says that all names in the tree are names in paths, so that what a path
names can be told from its text, and `h` that the pattern can be expanded. -/
theorem mem_expand_iff_isHidden {unlisted : Unlisted} (hNamed : tree.root.isNamed = true)
    (h : tree.expand root pattern unlisted = .ok paths) :
    path ∈ paths ↔ tree.Finds root (plainForm pattern) path ∧
      (path.IsDeclaration → IsHidden (checkedText root (plainForm pattern) path)) := by
  rw [mem_expand_iff h]
  refine and_congr_right fun hFinds => ?_
  rw [← Bool.not_eq_true, isLeftOut_iff, hFinds.isDeclaration_iff hNamed, not_and, not_not]

end FileTree

-- ---------------------------------------------------------------------------
-- Runs
-- ---------------------------------------------------------------------------

variable {patterns : List (List Char)} {unlisted : Unlisted} {dryRun : Bool} {report : Report}

namespace FileTree

/-- What is planned is what a pattern stands for. -/
theorem exists_of_mem_plan (h : tree.plan root patterns unlisted = .ok paths)
    (hMem : path ∈ paths) :
    ∃ pattern ∈ patterns, ∃ found, tree.expand root pattern unlisted = .ok found ∧
      path ∈ found := by
  obtain ⟨found, hFound, rfl⟩ := plan_eq_ok_iff.1 h
  rw [← unseen_nil] at hMem
  obtain ⟨here, hHere, hPath⟩ := List.mem_flatten.1 (mem_of_mem_unseen hMem)
  obtain ⟨pattern, hPattern, hExpand⟩ := (Glob.mem_mapM_iff hFound).1 hHere
  exact ⟨pattern, hPattern, here, hExpand, hPath⟩

/-- What a run reports is what a pattern stands for, whether the run comes to its end or not. -/
theorem exists_of_mem_reports (h : report ∈ (run tree root patterns dryRun unlisted).reports) :
    ∃ pattern ∈ patterns, ∃ found, tree.expand root pattern unlisted = .ok found ∧
      report.file ∈ found := by
  obtain ⟨-, -, hPlan, hStops⟩ := run_cases tree root patterns dryRun unlisted
  have hFile := List.mem_map_of_mem (f := Report.file) h
  cases hFailure : (run tree root patterns dryRun unlisted).failure with
  | none => exact exists_of_mem_plan (hPlan hFailure) hFile
  | some failure =>
    have hStop := hStops failure hFailure
    cases hStop with
    | pattern hPatterns hFront =>
      obtain ⟨pattern, hPattern, hFound⟩ := exists_of_mem_plan hFront hFile
      refine ⟨pattern, ?_, hFound⟩
      rw [hPatterns]
      exact List.mem_append_left _ hPattern
    | read hPatterns _ _ hHere =>
      obtain ⟨pattern, hPattern, hFound⟩ :=
        exists_of_mem_plan hHere (List.mem_append_left _ hFile)
      refine ⟨pattern, ?_, hFound⟩
      rw [hPatterns, List.append_cons]
      exact List.mem_append_left _ hPattern

end FileTree

/-- Of files with type declarations only those that are hidden are touched. -/
structure SparesDeclarations (tree : FileTree) (root : Path) (patterns : List (List Char))
    (unlisted : Unlisted) (outcome : Outcome) : Prop where
  /-- A pattern stands for what it finds, but of files with type declarations only for those that
  are hidden. -/
  expanded : ∀ pattern paths, tree.expand root pattern unlisted = .ok paths →
    ∀ path, path ∈ paths ↔ tree.Finds root (plainForm pattern) path ∧
      (path.IsDeclaration → IsHidden (checkedText root (plainForm pattern) path))
  /-- If one is reported, it is hidden from the pattern that finds it. -/
  reported : ∀ report ∈ outcome.reports, report.file.IsDeclaration →
    ∃ pattern ∈ patterns, tree.Finds root (plainForm pattern) report.file ∧
      IsHidden (checkedText root (plainForm pattern) report.file)
  /-- If one holds something else in the end, it has been written under its own name and is hidden,
  or there are links on the way to it. -/
  changed : ∀ location name, location.getLast? = some name → declarationEnding <:+ name →
    outcome.tree.bytes? location ≠ tree.bytes? location →
    ∃ report ∈ outcome.reports, report.Writes tree location ∧
      (report.file.IsDeclaration ∨
        tree.follow 0 (tree.startOf report.file) report.file.segments ≠ .ok location)

/-- **Declarations are spared.** Of files with type declarations only, a pattern stands for those
that are hidden and for no others: in the text that is held against the ending, a segment on the
way starts with a dot, as two dots do, or the part of the name in front of the ending does. Only
these are reported, and one that holds something else in the end has been written under its own
name and was hidden, or was come to by a link.

`hNamed` says that all names in the tree are names in paths: not empty, no dot or two dots, without
slashes. The root, the patterns and the directories that cannot be listed are arbitrary, and the
run may end early. -/
theorem run_sparesDeclarations (hNamed : tree.root.isNamed = true) (root : Path)
    (patterns : List (List Char)) (dryRun : Bool) (unlisted : Unlisted) :
    SparesDeclarations tree root patterns unlisted (run tree root patterns dryRun unlisted) := by
  refine ⟨fun pattern paths hExpand path => FileTree.mem_expand_iff_isHidden hNamed hExpand, ?_, ?_⟩
  · intro report hMem hDeclaration
    obtain ⟨pattern, hPattern, found, hExpand, hFile⟩ := FileTree.exists_of_mem_reports hMem
    obtain ⟨hFinds, hHidden⟩ := (FileTree.mem_expand_iff_isHidden hNamed hExpand).1 hFile
    exact ⟨pattern, hPattern, hFinds, hHidden hDeclaration⟩
  · intro location name hLast hEnding hDifferent
    obtain ⟨hProcessed, -⟩ := run_cases tree root patterns dryRun unlisted
    obtain ⟨report, hMem, hWrites⟩ : ∃ report ∈ (run tree root patterns dryRun unlisted).reports,
        report.Writes tree location := by
      by_contra hNone
      refine hDifferent (FileTree.processAll_bytes? hProcessed fun report hMem hWrites => ?_)
      exact hNone ⟨report, hMem, hWrites⟩
    refine ⟨report, hMem, hWrites, ?_⟩
    by_cases hDirect :
        tree.follow 0 (tree.startOf report.file) report.file.segments = .ok location
    · left
      obtain ⟨pattern, -, found, hExpand, hFile⟩ := FileTree.exists_of_mem_reports hMem
      obtain ⟨hFinds, -⟩ := (FileTree.mem_expand_iff hExpand).1 hFile
      obtain ⟨front, last, hSegments, hName⟩ := hFinds.exists_segments hNamed
      rw [hSegments] at hDirect
      have hSame := FileTree.getLast?_of_follow hDirect hName
      rw [hLast] at hSame
      refine ⟨name, ?_, hEnding⟩
      rw [Path.fileName?_of_segments hSegments hName, hSame]
    · exact .inr hDirect

-- ---------------------------------------------------------------------------
-- A file that is found by a detour
-- ---------------------------------------------------------------------------

/-- A text with an import that is relocated. -/
def typesText : String := "import '@aws-cdk/core';"

/-- A file with type declarations, and a directory beside it. -/
def typesTree : FileTree :=
  ⟨.directory (.entry "a.d.ts".toList (.file typesText.toUTF8)
    (.entry "sub".toList (.directory .none) .none)), []⟩

/-- The file, by way of the directory. -/
def typesPattern : List Char := "sub/../a.d.ts".toList

theorem resolve_typesTree :
    typesTree.resolve ⟨"./sub/../a.d.ts".toList⟩ = .ok ["a.d.ts".toList] := by
  rw [FileTree.resolve_of_short (by decide) (by decide) (by decide)]
  calc typesTree.follow _ [] [['.'], "sub".toList, ['.', '.'], "a.d.ts".toList]
      = typesTree.follow _ [] ["sub".toList, ['.', '.'], "a.d.ts".toList] := FileTree.follow_dot rfl
    _ = typesTree.follow _ ["sub".toList] [['.', '.'], "a.d.ts".toList] :=
        FileTree.follow_node rfl (by decide) rfl fun _ => Node.noConfusion
    _ = typesTree.follow _ [] ["a.d.ts".toList] := FileTree.follow_up rfl
    _ = typesTree.follow _ ["a.d.ts".toList] [] := FileTree.follow_file rfl (by decide) rfl
    _ = .ok ["a.d.ts".toList] := FileTree.follow_nil

theorem read_typesTree : typesTree.read ⟨"./sub/../a.d.ts".toList⟩ = .ok typesText :=
  FileTree.read_of_file resolve_typesTree rfl

/-- The detour finds the file, because its second segment starts with a dot. -/
theorem expand_typesTree :
    typesTree.expand here typesPattern = .ok [⟨"./sub/../a.d.ts".toList⟩] :=
  FileTree.expand_of_file (by decide) (FileTree.isFile_of_read read_typesTree) (by cbv)

/-- A run over what the detour finds has the file written. -/
theorem run_typesTree :
    ∃ report ∈ (run typesTree here [typesPattern] false).reports,
      report.Writes typesTree ["a.d.ts".toList] ∧ report.file.IsDeclaration := by
  have hChanges : relocate typesText "./sub/../a.d.ts" ≠ typesText := by
    rw [relocate_eq_foldl]
    decide +kernel
  have hProcess := FileTree.process_of_read read_typesTree false
  have hReports : (run typesTree here [typesPattern] false).reports
      = [(processed typesTree false ⟨"./sub/../a.d.ts".toList⟩ typesText).1] := by
    simp only [run, visitPatterns, Progress.start, visitAll, Progress.visit, List.contains_nil,
      Bool.false_eq_true, if_false, Except.map, expand_typesTree, hProcess]
    rfl
  rw [hReports]
  refine ⟨_, List.mem_cons_self, ⟨?_, resolve_typesTree⟩, "a.d.ts".toList, rfl, by decide⟩
  show (relocate typesText "./sub/../a.d.ts" != typesText && !false) = true
  rw [bne_iff_ne.2 hChanges]
  rfl

/-- Of the files with type declarations in the tree only hidden ones are touched. -/
theorem sparesDeclarations_typesTree :
    typesTree.root.isNamed = true ∧
      SparesDeclarations typesTree here [typesPattern] allListed
        (run typesTree here [typesPattern] false) :=
  have hNamed : typesTree.root.isNamed = true := by decide
  ⟨hNamed, run_sparesDeclarations hNamed here [typesPattern] false allListed⟩

/-- Not every file with type declarations is left alone: by a path that goes up first, such a
file is hidden from the rule that leaves it out, and is reported and written. -/
theorem not_forall_not_isDeclaration :
    ¬∀ (tree : FileTree) (root : Path) (patterns : List (List Char)) (dryRun : Bool)
      (unlisted : Unlisted), tree.root.isNamed = true →
        (∀ pattern paths, tree.expand root pattern unlisted = .ok paths →
          ∀ path ∈ paths, ¬path.IsDeclaration) ∧
          ∀ report ∈ (run tree root patterns dryRun unlisted).reports,
            ¬report.file.IsDeclaration := by
  intro h
  obtain ⟨-, hReported⟩ := h typesTree here [typesPattern] false allListed (by decide)
  obtain ⟨report, hMem, -, hDeclaration⟩ := run_typesTree
  exact hReported report hMem hDeclaration

end Relocation

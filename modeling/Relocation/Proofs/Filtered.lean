import Relocation.Proofs.EarlyEnd
import Relocation.Proofs.Text.Searches
import Relocation.Proofs.WalkBases

/-!
# Globs as filters

A glob is looked up by a walk that starts where its plain segments lead and that turns back at
directories of dependencies and at dots. What comes of it can be said without the walk: of all the
files below the root the glob stands for those that it asks for. That is a matter of the glob and
of the names that lead to the file, and of nothing else.

## Results

* `Glob.AsksFor`: what a glob asks of a file below the root;
* `FileTree.expand_filtered`: a glob stands for the files below the root that it asks for.
-/

namespace Relocation

open Text

variable {tree : FileTree} {root path : Path} {entries : Entries} {node : Node}
  {pattern : List Char} {glob : Glob} {location names : Location}

-- ---------------------------------------------------------------------------
-- What globs ask for
-- ---------------------------------------------------------------------------

/-- What a glob asks of a file below the root, given the names that lead there. -/
structure Glob.AsksFor (pattern : List Char) (location : Location) : Prop where
  /-- An alternative matches the names with slashes between them, or the last name alone if there
  is no slash in the glob. -/
  matched : Matches pattern
    (if '/' ∈ pattern then joined '/' location else location.getLastD [])
  /-- The names are not those of a file with type declarations only. -/
  kept : isLeftOut (joined '/' location) = false
  /-- Behind the plain segments there is no directory of dependencies. -/
  direct : dependencyDirectory ∉ (location.drop (plainSegments pattern).length).dropLast
  /-- Behind the plain segments no name starts with a dot, unless the glob or one of its segments
  does. -/
  shown : pattern.head? = some '.' ∨ ['/', '.'] <:+: pattern ∨
    ∀ name ∈ location.drop (plainSegments pattern).length, name.head? ≠ some '.'

theorem asksForDots_iff :
    asksForDots pattern = true ↔ pattern.head? = some '.' ∨ ['/', '.'] <:+: pattern := by
  have hInside : (splitAtFirst? ['/', '.'] pattern).isSome = true ↔ ['/', '.'] <:+: pattern := by
    rw [← Option.ne_none_iff_isSome, ne_eq, splitAtFirst?_eq_none_iff]
    constructor
    · intro hSome
      obtain ⟨n, hAt⟩ := not_forall.1 hSome
      obtain ⟨front, behind, rfl, -⟩ := not_not.1 hAt
      exact ⟨front, behind, List.append_assoc ..⟩
    · rintro ⟨front, behind, rfl⟩ hNone
      exact hNone _ (wordAt_parts front ['/', '.'] behind)
  rw [asksForDots, Bool.or_eq_true, beq_iff_eq, hInside]

-- ---------------------------------------------------------------------------
-- The root with nothing behind it
-- ---------------------------------------------------------------------------

theorem descend_placeOf_nil (hSome : location ≠ []) (hNames : ∀ name ∈ location, IsNamed name) :
    (placeOf root []).descend location = root.descend location := by
  rw [Path.descend_eq hSome hNames, Path.descend_eq hSome hNames, lead_placeOf isBase_nil]
  show Path.mk (root.lead ++ [] ++ _) = _
  rw [List.append_nil]

/-- Behind the root a glob takes the files that it asks for. -/
theorem takes_placeOf_nil (hSome : location ≠ [])
    (hNames : ∀ name ∈ location, isWritable name = true) :
    Takes root pattern (placeOf root []) (Glob.plainSegments pattern) location ↔
      Glob.AsksFor pattern location := by
  have hText : relativeText root ((placeOf root []).descend location) = joined '/' location :=
    relativeText_descend isBase_nil (by simp) hSome hNames
  rw [Takes, candidate, hText, isReached_iff, asksForDots_iff, or_assoc]
  constructor
  · rintro ⟨hMatch, hKept, hDirect, hShown⟩
    exact ⟨hMatch, hKept, hDirect, hShown⟩
  · rintro ⟨hMatch, hKept, hDirect, hShown⟩
    exact ⟨hMatch, hKept, hDirect, hShown⟩

namespace FileTree

namespace Reaches

/-- The root is where it is with a slash behind it, unless that makes it too long. -/
theorem below_placeOf_nil (h : tree.Reaches root) (hFollow : CanFollow (placeOf root [])) :
    tree.below (placeOf root []) = tree.below root := by
  rw [placeOf_nil] at hFollow ⊢
  have hSame (entries : Entries) : tree.node? ⟨root.lead⟩ = some (.directory entries) ↔
      tree.node? root = some (.directory entries) :=
    node?_lead_eq_directory_iff h.proper h.filled hFollow
  by_cases hRoot : ∃ entries, tree.node? root = some (.directory entries)
  · obtain ⟨entries, hEntries⟩ := hRoot
    rw [below_of_directory hEntries, below_of_directory ((hSame entries).2 hEntries)]
  · rw [below_of_not_directory hRoot, below_of_not_directory]
    rintro ⟨entries, hEntries⟩
    exact hRoot ⟨entries, (hSame entries).1 hEntries⟩

/-- What leads on from the root can only be followed if the root can, with a slash behind it. -/
theorem canFollow_placeOf_nil (h : tree.Reaches root) (hNames : ∀ name ∈ location, IsNamed name)
    (hFollow : CanFollow ((placeOf root []).descend location)) : CanFollow (placeOf root []) := by
  refine hFollow.of_prefix ?_ ((placeOf root []).prefix_descend hNames)
  rw [placeOf_nil]
  intro (hNil : root.lead = [])
  have hPrefix := root.prefix_lead
  rw [hNil] at hPrefix
  exact h.filled (List.prefix_nil.1 hPrefix)

theorem descend_placeOf_nil (h : tree.Reaches root) {file : Location × ByteArray}
    (hFile : file ∈ (tree.below root).files) :
    (placeOf root []).descend file.1 = root.descend file.1 :=
  Relocation.descend_placeOf_nil (Entries.ne_nil_of_mem_files hFile) fun name hMem =>
    (isWritable_spec (h.isWritable hFile name hMem)).1

/-- The files below the root can be reached with a slash behind it. -/
theorem placeOf_nil (h : tree.Reaches root) (hFollow : CanFollow (placeOf root [])) :
    tree.Reaches (placeOf root []) := by
  refine ⟨h.proper, hFollow.2.1, fun file hFile => ?_⟩
  rw [h.below_placeOf_nil hFollow] at hFile
  rw [h.descend_placeOf_nil hFile]
  exact h.short file hFile

/-- If the root with a slash behind it cannot be followed, there are no files below it. -/
theorem files_eq_nil (h : tree.Reaches root) (hLong : ¬CanFollow (placeOf root [])) :
    (tree.below root).files = [] := by
  refine List.eq_nil_iff_forall_not_mem.2 fun file hFile => hLong ?_
  have hNames := h.isWritable hFile
  refine h.canFollow_placeOf_nil (fun name hMem => (isWritable_spec (hNames name hMem)).1) ?_
  rw [h.descend_placeOf_nil hFile]
  exact canFollow_descend (canFollow_of_node? (h.holds_of_mem hFile).leads) hNames
    (h.short file hFile)

end Reaches

/-- **Walks lose nothing.** A glob stands for the files below the root that it asks for
(`Glob.AsksFor`), all of them and no others, in the order of their paths and without repetition,
although the walk starts only where the plain segments of the glob lead.

* `h` says that the files below the root can be reached: the tree has no links, each of its names
  can be written in a path, without a backslash, and names one entry, the path of the root is not
  empty, and no path of a file below it is too long to be followed;
* `hSlashes` and `hSegments` say that the glob is relative and leads down: it has no backslash and
  no segment that is empty, a dot or two dots;
* `hMagic` and `hRead` say that it has a wildcard or a group, and that it is well formed. -/
theorem expand_filtered (h : tree.Reaches root) (hSlashes : '\\' ∉ pattern)
    (hSegments : ∀ segment ∈ segments '/' pattern, segment ∉ [[], ['.'], ['.', '.']])
    (hMagic : Glob.hasMagic pattern = true) (hRead : Glob.ofText pattern = .ok glob) :
    ∃ paths, tree.expand root pattern = .ok paths ∧
      paths.Pairwise (fun path other =>
        path.comesBefore other = true ∧ path.components ≠ other.components) ∧
      ∀ path, path ∈ paths ↔
        ∃ file ∈ (tree.below root).files,
          path = root.descend file.1 ∧ Glob.AsksFor pattern file.1 := by
  have hNamed : ∀ name ∈ Glob.plainSegments pattern, IsNamed name := by
    intro name hMem
    refine ⟨hSegments name ?_, Glob.slash_notMem_of_mem_plainSegments hMem⟩
    exact List.mem_of_mem_dropLast ((List.takeWhile_sublist _).mem hMem)
  have hBehind : Glob.Behind [] (Glob.plainSegments pattern) pattern glob := by
    refine ⟨isBase_nil, hNamed, rfl, plainForm_eq_iff.2 ⟨hSlashes, ?_⟩, hMagic, hRead⟩
    rintro ⟨rest, rfl⟩
    exact hSegments ['.'] List.mem_cons_self (by decide)
  by_cases hCan : CanFollow (placeOf root [])
  · obtain ⟨paths, hExpand, hOrder, hMem⟩ := expand_below hBehind (h.placeOf_nil hCan)
    refine ⟨paths, hExpand, hOrder, fun path => (hMem path).trans ?_⟩
    rw [StandsFor, h.below_placeOf_nil hCan]
    refine exists_congr fun file => and_congr_right fun hFile => ?_
    rw [takes_placeOf_nil (Entries.ne_nil_of_mem_files hFile) (h.isWritable hFile),
      h.descend_placeOf_nil hFile]
  · -- the walk starts nowhere, and there is nothing to be found
    have hNowhere : tree.node? (startOfExpansion root pattern) = none := by
      rw [hBehind.startOfExpansion_eq, Option.eq_none_iff_forall_ne_some]
      intro node hNode
      exact hCan (h.canFollow_placeOf_nil hNamed (canFollow_of_node? hNode))
    refine ⟨[], ?_, .nil, ?_⟩
    · rw [expand_of_glob hBehind, hNowhere, Option.elim_none]
    · simp [h.files_eq_nil hCan]

/-- Where a tree is seen from its root, the working directory is that root. -/
theorem node?_here (entries : Entries) :
    node? ⟨.directory entries, []⟩ here = some (.directory entries) := by
  rw [node?_of_canFollow ⟨by decide, by decide, by decide⟩]
  exact nodeBehind?_eq_some_iff.2 ⟨[], (follow_dot rfl).trans follow_nil, rfl⟩

theorem Reaches.of_here (hProper : entries.isProper = true)
    (hShort : ∀ file ∈ entries.files, byteLength (here.descend file.1).text ≤ pathLimit) :
    Reaches ⟨.directory entries, []⟩ here := by
  refine ⟨hProper, by decide, ?_⟩
  rw [below_of_directory (node?_here entries)]
  exact hShort

end FileTree

-- ---------------------------------------------------------------------------
-- A library with all that is passed over
-- ---------------------------------------------------------------------------

/-- A directory with a file of each kind that a walk comes to or passes over. -/
def libraryEntries : Entries :=
  let file := Node.file .empty
  .entry "lib".toList (.directory
    (.entry ".b".toList (.directory (.entry "a.ts".toList file .none))
      (.entry "a.d.ts".toList file
        (.entry "a.ts".toList file
          (.entry "node_modules".toList (.directory (.entry "b.ts".toList file .none)) .none)))))
    .none

/-- The directory, seen from the root of a tree. -/
def libraryTree : FileTree :=
  ⟨.directory libraryEntries, []⟩

/-- A glob with a plain segment, any number of segments behind it, and two alternatives. -/
def libraryGlob : List Char := "lib/**/{a,b}*.ts".toList

/-- The glob stands for the files of the library that it asks for. -/
theorem expand_libraryTree :
    libraryTree.Reaches here ∧ '\\' ∉ libraryGlob ∧
      (∀ segment ∈ segments '/' libraryGlob, segment ∉ [[], ['.'], ['.', '.']]) ∧
      Glob.hasMagic libraryGlob = true ∧
      ∃ glob, Glob.ofText libraryGlob = .ok glob ∧
        ∃ paths, libraryTree.expand here libraryGlob = .ok paths ∧
          paths.Pairwise (fun path other =>
            path.comesBefore other = true ∧ path.components ≠ other.components) ∧
          ∀ path, path ∈ paths ↔ ∃ file ∈ libraryEntries.files,
            path = here.descend file.1 ∧ Glob.AsksFor libraryGlob file.1 := by
  have hReaches : libraryTree.Reaches here := .of_here (by decide) (by decide)
  have hSlashes : '\\' ∉ libraryGlob := by decide
  have hSegments : ∀ segment ∈ segments '/' libraryGlob,
      segment ∉ [[], ['.'], ['.', '.']] := by decide
  have hMagic : Glob.hasMagic libraryGlob = true := by decide
  obtain ⟨glob, hRead⟩ : ∃ glob, Glob.ofText libraryGlob = .ok glob := ⟨_, by cbv⟩
  have hBelow : libraryTree.below here = libraryEntries :=
    FileTree.below_of_directory (FileTree.node?_here libraryEntries)
  have hPaths := FileTree.expand_filtered hReaches hSlashes hSegments hMagic hRead
  rw [hBelow] at hPaths
  exact ⟨hReaches, hSlashes, hSegments, hMagic, glob, hRead, hPaths⟩

end Relocation

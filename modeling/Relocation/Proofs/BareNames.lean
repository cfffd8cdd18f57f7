import Relocation.Proofs.FileNames
import Relocation.Proofs.Filtered
import Relocation.Proofs.InsideSegments

/-!
# Globs without slashes

A glob without slashes is held against the names of files, wherever below the root they are. With
two stars and a slash in front of it, it is held against the names on the way there as well, and
they ask for the same. Both globs are looked up by one walk from the root that does not come to
names with a dot in front. Of the names on the way to a file the two stars pass over all but the
last, and the last one is held against the glob.

## Results

* `Glob.IsBare`, `Glob.anywhere`: such globs, and what is put in front of them;
* `FileTree.isWanted_anywhere`: the same is asked of a file;
* `FileTree.expand_anywhere`: both globs stand for the same files.
-/

namespace Relocation

open Text

variable {tree : FileTree} {root : Path} {pattern : List Char} {glob : Glob} {location : Location}

namespace Glob

-- ---------------------------------------------------------------------------
-- Bare patterns
-- ---------------------------------------------------------------------------

/-- A glob without slashes and braces that does not start with a dot. -/
structure IsBare (pattern : List Char) : Prop where
  magic : hasMagic pattern = true
  slashless : '/' ∉ pattern ∧ '\\' ∉ pattern
  braceless : '\x7b' ∉ pattern
  shown : pattern.head? ≠ some '.'

/-- The pattern with two stars and a slash in front. -/
def anywhere (pattern : List Char) : List Char := "**/".toList ++ pattern

namespace IsBare

theorem ne_nil (h : IsBare pattern) : pattern ≠ [] := by
  rintro rfl
  exact Bool.false_ne_true h.magic

theorem segments_anywhere (h : IsBare pattern) :
    segments '/' (anywhere pattern) = ["**".toList, pattern] := by
  show segments '/' ("**".toList ++ '/' :: pattern) = _
  rw [segments_append, segments_of_notMem (by decide), segments_of_notMem h.slashless.1]
  rfl

/-- Neither the pattern nor what stands in front of it asks for names that start with a dot. -/
theorem asksForDots_eq (h : IsBare pattern) :
    asksForDots pattern = false ∧ asksForDots (anywhere pattern) = false := by
  simp only [← Bool.not_eq_true, asksForDots_iff, not_or]
  refine ⟨⟨h.shown, ?_⟩, by simp [anywhere], ?_⟩
  · rintro ⟨front, behind, rfl⟩
    exact h.slashless.1 (by simp)
  · -- a slash with a dot behind it would be the one in front of the pattern, or in the pattern
    rintro ⟨front, behind, hParts⟩
    have hAll : front ++ '/' :: '.' :: behind = '*' :: '*' :: '/' :: pattern :=
      (List.append_assoc front ['/', '.'] behind).symm.trans hParts
    rcases front with _ | ⟨first, _ | ⟨second, _ | ⟨third, front⟩⟩⟩
    · exact absurd (List.cons.inj hAll).1 (by decide)
    · exact absurd (List.cons.inj (List.cons.inj hAll).2).1 (by decide)
    · refine h.shown ?_
      rw [← (List.cons.inj (List.cons.inj (List.cons.inj hAll).2).2).2]
      rfl
    · refine h.slashless.1 ?_
      rw [← (List.cons.inj (List.cons.inj (List.cons.inj hAll).2).2).2]
      simp

theorem ofText_eq_ok_iff (h : '\x7b' ∉ pattern) :
    ofText pattern = .ok glob ↔ ∃ tokens, tokensOf pattern = .ok tokens ∧ glob = ⟨[tokens]⟩ := by
  rw [ofText, alternatives_of_none (firstGroup?_of_notMem h), map_eq_ok_iff]
  constructor
  · rintro ⟨patterns, hPatterns, rfl⟩
    obtain ⟨tokens, hTokens⟩ := exists_mapM_iff.1 ⟨patterns, hPatterns⟩ pattern List.mem_cons_self
    rw [List.mapM_cons, hTokens] at hPatterns
    exact ⟨tokens, hTokens, congrArg Glob.mk (Except.ok.inj hPatterns).symm⟩
  · rintro ⟨tokens, hTokens, rfl⟩
    refine ⟨[tokens], ?_, rfl⟩
    rw [List.mapM_cons, hTokens]
    rfl

theorem exists_tokens (h : IsBare pattern) (hRead : ofText pattern = .ok glob) :
    ∃ tokens, glob = ⟨[tokens]⟩ ∧ ofText (anywhere pattern) = .ok ⟨[.anySegments :: tokens]⟩ ∧
      tokens ≠ [] ∧ (StaysInside tokens ∨ tokens = [.anySegments]) := by
  obtain ⟨tokens, hTokens, rfl⟩ := (ofText_eq_ok_iff h.braceless).1 hRead
  refine ⟨tokens, rfl, (ofText_eq_ok_iff ?_).2 ⟨_, ?_, rfl⟩, readTokens_ne_nil h.ne_nil hTokens,
    (staysInside_or_of_readTokens h.slashless.1 hTokens).imp_right And.right⟩
  · simpa [anywhere] using h.braceless
  · show readTokens 0 true ('*' :: '*' :: '/' :: pattern) = _
    rw [readTokens, readTokens_position hTokens]
    rfl

/-- A glob without slashes starts at the root. -/
theorem behind (h : IsBare pattern) (hRead : ofText pattern = .ok glob) :
    Behind [] [] pattern glob := by
  refine ⟨isBase_nil, fun _ hMem => absurd hMem List.not_mem_nil, ?_, ?_, h.magic, hRead⟩
  · rw [plainSegments, segments_of_notMem h.slashless.1]
    rfl
  · refine plainForm_eq_iff.2 ⟨h.slashless.2, ?_⟩
    rintro ⟨rest, rfl⟩
    exact h.shown rfl

/-- So does the glob with two stars in front. -/
theorem behind_anywhere (h : IsBare pattern) (hRead : ofText (anywhere pattern) = .ok glob) :
    Behind [] [] (anywhere pattern) glob := by
  refine ⟨isBase_nil, fun _ hMem => absurd hMem List.not_mem_nil, ?_, ?_, rfl, hRead⟩
  · rw [plainSegments, h.segments_anywhere]
    rfl
  · refine plainForm_eq_iff.2 ⟨by simpa [anywhere] using h.slashless.2, ?_⟩
    rintro ⟨rest, hRest⟩
    exact absurd (List.cons.inj hRest).1 (by decide)

end IsBare

end Glob

-- ---------------------------------------------------------------------------
-- Expansions of bare patterns
-- ---------------------------------------------------------------------------

/-- The same fault, told of another pattern. -/
def ExpansionFault.toldOf (pattern : List Char) : ExpansionFault → ExpansionFault
  | malformed _ fault => malformed pattern fault
  | walk _ directory fault => walk pattern directory fault

namespace FileTree

variable {tokens : List Glob.Token} {unlisted : Unlisted}

/-- Of a file below the root the same is asked with two stars in front. -/
theorem isWanted_anywhere (h : Glob.IsBare pattern) (hSome : tokens ≠ [])
    (hTokens : Glob.StaysInside tokens ∨ tokens = [.anySegments]) (hLocation : location ≠ [])
    (hNames : ∀ name ∈ location, '/' ∉ name ∧ '\\' ∉ name ∧ name.head? ≠ some '.') :
    isWanted (Glob.anywhere pattern) ⟨[.anySegments :: tokens]⟩ location (joined '/' location)
      = isWanted pattern ⟨[tokens]⟩ location (joined '/' location) := by
  obtain ⟨front, last, rfl⟩ := List.eq_nil_or_concat location |>.resolve_left hLocation
  rw [List.concat_eq_append] at hNames ⊢
  have hMatches : matchesNames pattern = true := by simpa [matchesNames] using h.slashless.1
  have hRelative : matchesNames (Glob.anywhere pattern) = false := rfl
  have hLast : withSlashes last = last := withSlashes_of_notMem (hNames last (by simp)).2.1
  have hSame := Glob.matchesFrom_anySegments_names hSome hTokens fun name hMem =>
    ⟨(hNames name hMem).1, (hNames name hMem).2.2⟩
  rw [isWanted, isWanted, hMatches, hRelative, List.getLast?_concat, Option.map_some,
    Option.getD_some, hLast]
  simp only [Glob.isMatch, Glob.matchesText, List.any_cons, List.any_nil, hSame, if_true, if_false,
    Bool.false_eq_true]

/-- So it is with every file that a walk from the root comes to. -/
theorem isWanted_of_mem_walk {node : Node} (hNamed : tree.root.isNamed = true)
    (hFree : ∀ file ∈ tree.root.files, ∀ name ∈ file.1, '\\' ∉ name) (h : Glob.IsBare pattern)
    (hSome : tokens ≠ []) (hTokens : Glob.StaysInside tokens ∨ tokens = [.anySegments])
    (hNode : tree.node? ⟨root.lead⟩ = some node) (hWalk : location ∈ node.walk false) :
    isWanted (Glob.anywhere pattern) ⟨[.anySegments :: tokens]⟩ location
        (relativeText root ((Path.mk root.lead).descend location))
      = isWanted pattern ⟨[tokens]⟩ location
        (relativeText root ((Path.mk root.lead).descend location)) := by
  have hLocation := ne_nil_of_mem_walk hNode hWalk
  have hNames := Node.isNamed_of_mem_walk (isNamed_of_node? hNamed hNode) hWalk
  obtain ⟨file, hFile, hOn⟩ := exists_of_mem_walk hNode hWalk
  have hSlashes : ∀ name ∈ location, '\\' ∉ name := fun name hMem =>
    hFree file hFile name (hOn name hMem)
  have hShown : ∀ name ∈ location, name.head? ≠ some '.' :=
    ((isReached_iff.1 (Node.mem_walk_iff.1 hWalk).1).2).resolve_left (by simp)
  rw [relativeText_lead hLocation hNames hSlashes]
  exact isWanted_anywhere h hSome hTokens hLocation fun name hMem =>
    ⟨(hNames name hMem).2, hSlashes name hMem, hShown name hMem⟩

/-- The directories that cannot be listed are the same, whatever pattern they are told of. -/
theorem findSome?_toldOf (pattern other : List Char) (place : Path) (list : List Location) :
    (list.findSome? fun location => (unlisted (place.descend location)).map
        (ExpansionFault.walk other (place.descend location)))
      = (list.findSome? fun location => (unlisted (place.descend location)).map
        (ExpansionFault.walk pattern (place.descend location))).map (.toldOf other) := by
  induction list with
  | nil => rfl
  | cons location list ih =>
    rw [List.findSome?_cons, List.findSome?_cons, ih]
    cases unlisted (place.descend location) <;> rfl

/-- One walk serves both globs, and it comes to the same files or to the same fault. `hStart` and
`hAnywhere` say that it starts at the root for either of them, and `hSome` and `hTokens` that the
tokens of the bare glob stay inside a segment or are two stars. `hNamed` and `hFree` are asked of
the tree, as by the theorem on expansion. -/
theorem expandGlob_anywhere (hNamed : tree.root.isNamed = true)
    (hFree : ∀ file ∈ tree.root.files, ∀ name ∈ file.1, '\\' ∉ name) (h : Glob.IsBare pattern)
    (hSome : tokens ≠ []) (hTokens : Glob.StaysInside tokens ∨ tokens = [.anySegments])
    (hStart : startOfExpansion root pattern = ⟨root.lead⟩)
    (hAnywhere : startOfExpansion root (Glob.anywhere pattern) = ⟨root.lead⟩) :
    tree.expandGlob root (Glob.anywhere pattern) ⟨[.anySegments :: tokens]⟩ unlisted
      = (tree.expandGlob root pattern ⟨[tokens]⟩ unlisted).mapError
          (.toldOf (Glob.anywhere pattern)) := by
  obtain ⟨hDots, hDotsAnywhere⟩ := h.asksForDots_eq
  rw [expandGlob, expandGlob, hStart, hAnywhere, hDots, hDotsAnywhere]
  cases hNode : tree.node? ⟨root.lead⟩ with
  | none => rfl
  | some node =>
    dsimp only
    rw [findSome?_toldOf pattern]
    cases (node.listed false).findSome? fun location =>
        (unlisted ((Path.mk root.lead).descend location)).map
          (ExpansionFault.walk pattern ((Path.mk root.lead).descend location)) with
    | some fault => rfl
    | none =>
      refine congrArg (fun found : List Path => Except.ok (found.mergeSort Path.comesBefore)) ?_
      refine List.filterMap_congr fun location hWalk => ?_
      have hWanted := isWanted_of_mem_walk hNamed hFree h hSome hTokens hNode hWalk
      rw [relativeText] at hWanted
      rw [hWanted]

/-- **Bare globs.** A glob without slashes and braces that does not start with a dot is held
against the last names of files alone. It stands for the same files as with two stars and a slash
in front, where it is held against whole paths. If a directory cannot be listed, that is found out
with either of them, and only what the fault is told of differs.

* `hNamed` says that all names in the tree are names in paths;
* `hFree` says that no name on the way to a file has a backslash, which would be taken for a
  slash;
* `h` says that the glob is bare, and `hRead` that it is well formed. The root is arbitrary. -/
theorem expand_anywhere (hNamed : tree.root.isNamed = true)
    (hFree : ∀ file ∈ tree.root.files, ∀ name ∈ file.1, '\\' ∉ name) (h : Glob.IsBare pattern)
    (hRead : Glob.ofText pattern = .ok glob) (root : Path) :
    tree.expand root pattern = tree.expand root (Glob.anywhere pattern) ∧
      ∀ unlisted, tree.expand root (Glob.anywhere pattern) unlisted
        = (tree.expand root pattern unlisted).mapError (.toldOf (Glob.anywhere pattern)) := by
  obtain ⟨tokens, rfl, hAnywhere, hSome, hTokens⟩ := h.exists_tokens hRead
  have hHere := h.behind hRead
  have hThere := h.behind_anywhere hAnywhere
  have hStart := (hHere.startOfExpansion_eq root).trans (placeOf_nil root)
  have hStartAnywhere := (hThere.startOfExpansion_eq root).trans (placeOf_nil root)
  have hAll (unlisted : Unlisted) : tree.expand root (Glob.anywhere pattern) unlisted
      = (tree.expand root pattern unlisted).mapError (.toldOf (Glob.anywhere pattern)) := by
    rw [expand, expand, hHere.form, hThere.form, if_pos hHere.magic, if_pos hThere.magic, hRead,
      hAnywhere]
    exact expandGlob_anywhere hNamed hFree h hSome hTokens hStart hStartAnywhere
  refine ⟨?_, hAll⟩
  rw [hAll, expand_of_glob hHere]
  rfl

end FileTree

/-- A glob with a question mark and a star. -/
def bareGlob : List Char := "?*.ts".toList

/-- In the library the glob stands for the same files as with two stars in front. -/
theorem expand_bareGlob :
    libraryTree.root.isNamed = true ∧
      (∀ file ∈ libraryTree.root.files, ∀ name ∈ file.1, '\\' ∉ name) ∧ Glob.IsBare bareGlob ∧
      ∃ glob, Glob.ofText bareGlob = .ok glob ∧
        libraryTree.expand here bareGlob = libraryTree.expand here "**/?*.ts".toList := by
  have hNamed : libraryTree.root.isNamed = true := by decide
  have hFree : ∀ file ∈ libraryTree.root.files, ∀ name ∈ file.1, '\\' ∉ name := by decide
  have hBare : Glob.IsBare bareGlob := ⟨by decide, by decide, by decide, by decide⟩
  obtain ⟨glob, hRead⟩ : ∃ glob, Glob.ofText bareGlob = .ok glob := ⟨_, by cbv⟩
  exact ⟨hNamed, hFree, hBare, glob, hRead,
    (FileTree.expand_anywhere hNamed hFree hBare hRead here).1⟩

end Relocation

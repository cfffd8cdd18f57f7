import Relocation.Proofs.Filtered

/-!
# Alternatives as unions

A glob with groups in braces stands for its alternatives, and what it stands for should be what
these stand for together. As far as matching goes, it is. But there is one walk for the glob, which
is told from the glob as it is written where to start and whether to turn back at dots, and each
alternative has a walk of its own. So a file can be matched that only one of these walks comes to.
That is all that can go wrong, as long as the alternatives lead on by names from where the plain
segments in front of the groups lead. Globs with an empty segment in front of the first wildcard or
group, and alternatives with empty segments, dots or two dots of their own, are left out (see
`Glob.Forks`): there an alternative finds files that the glob does not find.

## Results

* `Glob.plainSegments_of_mem`: the plain segments of an alternative start with those of the glob;
* `FileTree.expand_eq_union_iff`: a glob stands for the union of its alternatives just when the
  walks agree on the files that are matched;
* `FileTree.walksAgree_of_forall`: they agree where no walk passes anything over;
* `not_expand_eq_union`: they do not always.
-/

namespace Relocation

open Text

variable {tree : FileTree} {root path : Path} {paths : List Path} {pattern part : List Char}
  {c : Char} {cs : List Char} {glob : Glob} {location : Location}

-- ---------------------------------------------------------------------------
-- Alternatives and their segments
-- ---------------------------------------------------------------------------

namespace Glob

/-- The plain segments of an alternative that those of the glob lead on to. -/
def ownSegments (pattern part : List Char) : List (List Char) :=
  (plainSegments part).drop (plainSegments pattern).length

theorem plainSegments_of_mem (h : part ∈ alternatives pattern) :
    plainSegments part = plainSegments pattern ++ ownSegments pattern part := by
  obtain ⟨more, hMore⟩ := exists_eq_terminated pattern
  have hPlain : ∀ segment ∈ plainSegments pattern, hasMagic segment = false := fun segment =>
    hasMagic_of_mem_plainSegments
  have hFree : ∀ segment ∈ plainSegments pattern, '/' ∉ segment := fun segment =>
    slash_notMem_of_mem_plainSegments
  rw [hMore, alternatives_of_plain (hasMagic_terminated hPlain)] at h
  obtain ⟨behind, -, rfl⟩ := List.mem_map.1 h
  have hOwn : plainSegments (terminated '/' (plainSegments pattern) ++ behind)
      = plainSegments pattern ++ plainSegments behind := by
    rw [plainSegments, segments_terminated hFree,
      List.dropLast_append_of_ne_nil (segments_ne_nil '/' behind), List.takeWhile_append_of_pos]
    · rfl
    · intro segment hMem
      rw [hPlain segment hMem]
      rfl
  rw [ownSegments, hOwn, List.drop_left]

theorem head_plainSegments_iff :
    (plainSegments pattern).head? = some ['.'] ↔ ['.', '/'] <+: pattern := by
  constructor
  · intro hDot
    obtain ⟨more, hMore⟩ := exists_eq_terminated pattern
    cases hPlain : plainSegments pattern with
    | nil => simp [hPlain] at hDot
    | cons first rest =>
      rw [hPlain] at hDot
      rw [hMore, hPlain, Option.some.inj hDot, terminated_cons]
      exact ⟨_, rfl⟩
  · rintro ⟨rest, rfl⟩
    obtain ⟨first, others, hSegments⟩ := List.exists_cons_of_ne_nil (segments_ne_nil '/' rest)
    have hAll : segments '/' (['.', '/'] ++ rest) = ['.'] :: first :: others := by
      rw [← hSegments]
      exact segments_append '/' ['.'] rest
    rw [plainSegments, hAll]
    rfl

/-- The glob is in plain form, and each of its alternatives has a slash and a wildcard in it and
leads on by names from where the plain segments of the glob lead.

Two kinds of globs are left out although they can be expanded. Where an empty segment stands right
in front of the first wildcard or group, as in `a//{b,c}/*.ts`, the walk for the glob starts at `a`
and so drops a slash that its alternatives keep: the glob matches nothing, while the alternatives
find files by paths with two slashes. And where an alternative has an empty segment, a dot or two
dots of its own, as in `{a,./b}/*.ts` and `{a,b/..}/*.ts`, it is expanded by itself in another form
or from a place that names alone do not lead to, and so finds files that the glob does not find. -/
structure Forks (pattern : List Char) : Prop where
  form : plainForm pattern = pattern
  /-- No empty segment is at the end of the plain segments, unless it is the first one: the slash
  that an absolute glob starts with. -/
  filled : (plainSegments pattern).getLast? = some [] → plainSegments pattern = [[]]
  slash : ∀ part ∈ alternatives pattern, '/' ∈ part
  magic : ∀ part ∈ alternatives pattern, hasMagic part = true
  /-- No alternative has an empty segment, a dot or two dots among the plain segments of its own. -/
  named : ∀ part ∈ alternatives pattern, ∀ name ∈ ownSegments pattern part, IsNamed name

namespace Forks

theorem isBase (h : Forks pattern) : IsBase (plainSegments pattern) := by
  obtain ⟨hSlashes, hStart⟩ := plainForm_eq_iff.1 h.form
  refine ⟨h.filled, fun hDot => hStart (head_plainSegments_iff.1 hDot), fun segment hMem =>
    ⟨slash_notMem_of_mem_plainSegments hMem, fun hc => hSlashes ?_⟩⟩
  obtain ⟨more, hMore⟩ := exists_eq_terminated pattern
  rw [hMore]
  exact List.mem_append_left _ (List.mem_flatMap.2 ⟨segment, hMem, List.mem_append_left _ hc⟩)

theorem slash_mem (h : Forks pattern) : '/' ∈ pattern := by
  obtain ⟨part, hPart⟩ := exists_mem_alternatives pattern
  exact mem_of_mem_alternatives hPart (h.slash part hPart)

/-- The glob starts where its plain segments lead. -/
theorem behind (h : Forks pattern) (hRead : ofText pattern = .ok glob) :
    Behind (plainSegments pattern) [] pattern glob := by
  refine ⟨h.isBase, by simp, (List.append_nil _).symm, h.form, ?_, hRead⟩
  obtain ⟨part, hPart⟩ := exists_mem_alternatives pattern
  obtain ⟨c, hc, hMagic⟩ := List.any_eq_true.1 (h.magic part hPart)
  exact List.any_eq_true.2 ⟨c, mem_of_mem_alternatives hPart hc, hMagic⟩

/-- An alternative leads on from there. -/
theorem behind_of_mem (h : Forks pattern) (hPart : part ∈ alternatives pattern)
    (hRead : ofText part = .ok glob) :
    Behind (plainSegments pattern) (ownSegments pattern part) part glob := by
  have hPlain := plainSegments_of_mem hPart
  obtain ⟨hSlashes, -⟩ := plainForm_eq_iff.1 h.form
  refine ⟨h.isBase, h.named part hPart, hPlain, plainForm_eq_iff.2 ⟨?_, ?_⟩, h.magic part hPart,
    hRead⟩
  · exact fun hMem => hSlashes (mem_of_mem_alternatives hPart hMem)
  · intro hStart
    have hDot := head_plainSegments_iff.2 hStart
    rw [hPlain] at hDot
    cases hFront : plainSegments pattern with
    | nil =>
      rw [hFront] at hDot
      exact (h.named part hPart _ (List.mem_of_mem_head? hDot)).1 (by decide)
    | cons first rest =>
      refine h.isBase.starts ?_
      rw [hFront] at hDot ⊢
      exact hDot

end Forks

end Glob

-- ---------------------------------------------------------------------------
-- Plans of alternatives
-- ---------------------------------------------------------------------------

/-- Where no path is written in two ways, those are gone through that have not been. -/
theorem mem_unseen_iff {seen : List (List Component)}
    (h : ∀ first ∈ paths, ∀ second ∈ paths, first.components = second.components → first = second) :
    path ∈ unseen seen paths ↔ path ∈ paths ∧ path.components ∉ seen := by
  refine ⟨fun hMem => ⟨mem_of_mem_unseen hMem, components_notMem_of_mem_unseen hMem⟩, ?_⟩
  rintro ⟨hMem, hFree⟩
  induction paths generalizing seen with
  | nil => exact absurd hMem List.not_mem_nil
  | cons first paths ih =>
    have hRest (seen : List (List Component)) (hMem : path ∈ paths)
        (hFree : path.components ∉ seen) : path ∈ unseen seen paths :=
      ih (fun one hOne other hOther =>
        h one (List.mem_cons_of_mem _ hOne) other (List.mem_cons_of_mem _ hOther)) hMem hFree
    cases hSeen : seen.contains first.components with
    | true =>
      rw [unseen_cons_of_seen hSeen]
      rcases List.mem_cons.1 hMem with rfl | hLater
      · exact absurd (List.contains_iff_mem.1 hSeen) hFree
      · exact hRest seen hLater hFree
    | false =>
      rw [unseen_cons_of_not_seen hSeen]
      by_cases hSame : path.components = first.components
      · rw [h path hMem first List.mem_cons_self hSame]
        exact List.mem_cons_self
      · have hLater : path ∈ paths := by
          refine (List.mem_cons.1 hMem).resolve_left ?_
          rintro rfl
          exact hSame rfl
        refine List.mem_cons_of_mem _ (hRest _ hLater fun hIn => ?_)
        exact (List.mem_cons.1 hIn).elim hSame hFree

/-- A pattern stands for what its plain form stands for. -/
theorem FileTree.expand_plainForm (h : plainForm (plainForm pattern) = plainForm pattern)
    (unlisted : Unlisted) :
    tree.expand root pattern unlisted = tree.expand root (plainForm pattern) unlisted := by
  rw [expand, expand, h]

/-- If each pattern stands for paths, and no path is written in two ways, they are all in the
plan. -/
theorem FileTree.exists_plan {patterns : List (List Char)} {Stands : List Char → Path → Prop}
    (h : ∀ pattern ∈ patterns, ∃ paths, tree.expand root pattern = .ok paths ∧
      ∀ path, path ∈ paths ↔ Stands pattern path)
    (hUnique : ∀ pattern ∈ patterns, ∀ other ∈ patterns, ∀ first second, Stands pattern first →
      Stands other second → first.components = second.components → first = second) :
    ∃ planned, tree.plan root patterns allListed = .ok planned ∧
      ∀ path, path ∈ planned ↔ ∃ pattern ∈ patterns, Stands pattern path := by
  obtain ⟨found, hFound⟩ : ∃ found, tree.expandAll root patterns allListed = .ok found :=
    Glob.exists_mapM_iff.2 fun pattern hMem => (h pattern hMem).imp fun _ hPaths => hPaths.1
  have hMem (path : Path) :
      path ∈ found.flatten ↔ ∃ pattern ∈ patterns, Stands pattern path := by
    rw [List.mem_flatten]
    constructor
    · rintro ⟨paths, hPaths, hPath⟩
      obtain ⟨pattern, hPattern, hExpand⟩ := (Glob.mem_mapM_iff hFound).1 hPaths
      obtain ⟨_, hSame, hStands⟩ := h pattern hPattern
      obtain rfl := Except.ok.inj (hSame.symm.trans hExpand)
      exact ⟨pattern, hPattern, (hStands path).1 hPath⟩
    · rintro ⟨pattern, hPattern, hPath⟩
      obtain ⟨paths, hExpand, hStands⟩ := h pattern hPattern
      exact ⟨paths, (Glob.mem_mapM_iff hFound).2 ⟨pattern, hPattern, hExpand⟩,
        (hStands path).2 hPath⟩
  refine ⟨_, plan_eq_ok_iff.2 ⟨found, hFound, rfl⟩, fun path => ?_⟩
  rw [← unseen_nil, mem_unseen_iff, hMem]
  · exact and_iff_left List.not_mem_nil
  · intro first hFirst second hSecond
    obtain ⟨pattern, hPattern, hStands⟩ := (hMem first).1 hFirst
    obtain ⟨other, hOther, hStands'⟩ := (hMem second).1 hSecond
    exact hUnique pattern hPattern other hOther first second hStands hStands'

/-- The alternatives of a pattern stand for what those of its plain form stand for. -/
theorem FileTree.plan_alternatives_plainForm
    (h : ∀ part ∈ Glob.alternatives (plainForm pattern), plainForm part = part)
    (unlisted : Unlisted) :
    tree.plan root (Glob.alternatives pattern) unlisted
      = tree.plan root (Glob.alternatives (plainForm pattern)) unlisted := by
  have hForms := Glob.map_plainForm_alternatives h
  rw [plan, plan, expandAll, expandAll, ← hForms, List.mapM_map]
  refine congrArg (Except.map _) (Glob.mapM_congr_left fun part hPart => ?_)
  have hForm : plainForm (plainForm part) = plainForm part := by
    refine h _ ?_
    rw [← hForms]
    exact List.mem_map_of_mem hPart
  exact expand_plainForm hForm unlisted

-- ---------------------------------------------------------------------------
-- Walks that agree
-- ---------------------------------------------------------------------------

namespace FileTree

/-- Of the files that the glob matches and that are not left out, its walk comes to those that the
walk for an alternative comes to that matches. -/
def WalksAgree (tree : FileTree) (root : Path) (pattern : List Char) : Prop :=
  let place := placeOf root (Glob.plainSegments pattern)
  ∀ file ∈ (tree.below place).files,
    let text := relativeText root (place.descend file.1)
    Glob.Matches pattern text → isLeftOut text = false →
      (isReached (asksForDots pattern) file.1 = true ↔
        ∃ part ∈ Glob.alternatives pattern, Glob.Matches part text ∧
          isReached (asksForDots part) (file.1.drop (Glob.ownSegments pattern part).length) = true)

/-- The walks agree where no walk passes anything over. -/
theorem walksAgree_of_forall
    (h : ∀ file ∈ (tree.below (placeOf root (Glob.plainSegments pattern))).files,
      dependencyDirectory ∉ file.1.dropLast ∧ ∀ name ∈ file.1, name.head? ≠ some '.') :
    tree.WalksAgree root pattern := by
  intro file hFile _ hMatch _
  obtain ⟨hDirect, hShown⟩ := h file hFile
  have hReached (dotsToo : Bool) (n : Nat) : isReached dotsToo (file.1.drop n) = true := by
    rw [isReached_iff, List.dropLast_drop_eq_drop_dropLast]
    exact ⟨fun hMem => hDirect (List.mem_of_mem_drop hMem),
      .inr fun name hMem => hShown name (List.mem_of_mem_drop hMem)⟩
  obtain ⟨part, hPart, hOwn⟩ := Glob.matches_iff_exists_mem.1 hMatch
  exact ⟨fun _ => ⟨part, hPart, hOwn, hReached _ _⟩, fun _ => hReached _ 0⟩

/-- The walks agree if the glob takes the files that its alternatives take. -/
theorem walksAgree_iff (h : Glob.Forks pattern) :
    tree.WalksAgree root pattern ↔
      ∀ file ∈ (tree.below (placeOf root (Glob.plainSegments pattern))).files,
        (Takes root pattern (placeOf root (Glob.plainSegments pattern)) [] file.1 ↔
          ∃ part ∈ Glob.alternatives pattern,
            Takes root part (placeOf root (Glob.plainSegments pattern))
              (Glob.ownSegments pattern part) file.1) := by
  refine forall_congr' fun file => imp_congr_right fun _ => ?_
  have hTakes {part : List Char} (hSlash : '/' ∈ part) (names : Location) :
      Takes root part (placeOf root (Glob.plainSegments pattern)) names file.1 ↔
        Glob.Matches part (relativeText root
            ((placeOf root (Glob.plainSegments pattern)).descend file.1)) ∧
          isLeftOut (relativeText root
            ((placeOf root (Glob.plainSegments pattern)).descend file.1)) = false ∧
          isReached (asksForDots part) (file.1.drop names.length) = true := by
    rw [Takes, candidate, if_pos hSlash]
  rw [hTakes h.slash_mem]
  generalize relativeText root _ = text at hTakes ⊢
  constructor
  · intro hAgree
    constructor
    · rintro ⟨hMatch, hKept, hReached⟩
      obtain ⟨part, hPart, hOwn, hFrom⟩ := (hAgree hMatch hKept).1 hReached
      exact ⟨part, hPart, (hTakes (h.slash part hPart) _).2 ⟨hOwn, hKept, hFrom⟩⟩
    · rintro ⟨part, hPart, hTaken⟩
      obtain ⟨hOwn, hKept, hFrom⟩ := (hTakes (h.slash part hPart) _).1 hTaken
      have hMatch := Glob.matches_iff_exists_mem.2 ⟨part, hPart, hOwn⟩
      exact ⟨hMatch, hKept, (hAgree hMatch hKept).2 ⟨part, hPart, hOwn, hFrom⟩⟩
  · intro hSame _ hMatch hKept
    constructor
    · intro hReached
      obtain ⟨part, hPart, hTaken⟩ := hSame.1 ⟨hMatch, hKept, hReached⟩
      obtain ⟨hOwn, -, hFrom⟩ := (hTakes (h.slash part hPart) _).1 hTaken
      exact ⟨part, hPart, hOwn, hFrom⟩
    · rintro ⟨part, hPart, hOwn, hFrom⟩
      exact (hSame.2 ⟨part, hPart, (hTakes (h.slash part hPart) _).2 ⟨hOwn, hKept, hFrom⟩⟩).2.2

/-- What a glob stands for, and what its alternatives stand for. -/
theorem exists_expansions (h : Glob.Forks pattern) (hRead : Glob.ofText pattern = .ok glob)
    (hReaches : tree.Reaches (placeOf root (Glob.plainSegments pattern))) :
    ∃ paths planned, tree.expand root pattern = .ok paths ∧
      tree.plan root (Glob.alternatives pattern) allListed = .ok planned ∧
      paths.Pairwise (fun path other =>
        path.comesBefore other = true ∧ path.components ≠ other.components) ∧
      (∀ path, path ∈ paths ↔
        tree.StandsFor root pattern (placeOf root (Glob.plainSegments pattern)) [] path) ∧
      ∀ path, path ∈ planned ↔ ∃ part ∈ Glob.alternatives pattern,
        tree.StandsFor root part (placeOf root (Glob.plainSegments pattern))
          (Glob.ownSegments pattern part) path := by
  obtain ⟨paths, hExpand, hOrder, hPaths⟩ := expand_below (h.behind hRead) hReaches
  have hEach : ∀ part ∈ Glob.alternatives pattern, ∃ found, tree.expand root part = .ok found ∧
      ∀ path, path ∈ found ↔ tree.StandsFor root part
        (placeOf root (Glob.plainSegments pattern)) (Glob.ownSegments pattern part) path := by
    intro part hPart
    obtain ⟨single, hSingle⟩ := Glob.exists_ofText_of_mem hRead hPart
    obtain ⟨found, hFound, -, hMem⟩ := expand_below (h.behind_of_mem hPart hSingle) hReaches
    exact ⟨found, hFound, hMem⟩
  obtain ⟨planned, hPlan, hPlanned⟩ := exists_plan hEach (by
    rintro _ - _ - _ _ ⟨file, hFile, rfl, -⟩ ⟨other, hOther, rfl, -⟩ hSame
    rw [hReaches.location_eq hFile hOther hSame])
  exact ⟨paths, planned, hExpand, hPlan, hOrder, hPaths, hPlanned⟩

/-- A glob in plain form stands for the union of its alternatives just when the walks agree. -/
theorem union_of_forks (h : Glob.Forks pattern) (hRead : Glob.ofText pattern = .ok glob)
    (hReaches : tree.Reaches (placeOf root (Glob.plainSegments pattern))) :
    ∃ paths planned, tree.expand root pattern = .ok paths ∧
      tree.plan root (Glob.alternatives pattern) allListed = .ok planned ∧
        (paths = planned.mergeSort Path.comesBefore ↔ tree.WalksAgree root pattern) := by
  obtain ⟨paths, planned, hExpand, hPlan, hOrder, hPaths, hPlanned⟩ :=
    exists_expansions h hRead hReaches
  refine ⟨paths, planned, hExpand, hPlan, ?_⟩
  have hSorted : paths = planned.mergeSort Path.comesBefore ↔
      ∀ path, path ∈ paths ↔ path ∈ planned := by
    constructor
    · rintro hSame path
      rw [hSame, List.mem_mergeSort]
    · intro hSame
      refine Path.eq_of_pairwise hOrder (Path.pairwise_mergeSort (pairwise_plan hPlan)) ?_
      intro path
      rw [List.mem_mergeSort, hSame]
  rw [hSorted, walksAgree_iff h]
  simp only [hPaths, hPlanned]
  constructor
  · intro hSame file hFile
    have hHere := hSame ((placeOf root (Glob.plainSegments pattern)).descend file.1)
    simpa only [standsFor_descend_iff hReaches hFile] using hHere
  · intro hTakes path
    constructor
    · rintro ⟨file, hFile, rfl, hTaken⟩
      obtain ⟨part, hPart, hOwn⟩ := (hTakes file hFile).1 hTaken
      exact ⟨part, hPart, file, hFile, rfl, hOwn⟩
    · rintro ⟨part, hPart, file, hFile, rfl, hOwn⟩
      exact ⟨file, hFile, rfl, (hTakes file hFile).2 ⟨part, hPart, hOwn⟩⟩

/-- **Alternatives as unions.** A glob stands for the union of what its alternatives stand for, in
the order of the paths and without repetition, if and only if the walks agree on the files that
are matched (`WalksAgree`). Both expansions succeed in any case.

* `hForm` says that the pattern is the plain form of the one that is written;
* `h` says of the glob that its alternatives lead on by names (see `Glob.Forks` for what this
  leaves out), and that each of them has a slash and a wildcard in it;
* `hRead` says that the glob is well formed;
* `hReaches` says that the files below the place where the walk starts can be reached, in a tree
  without links whose names can be written in paths. -/
theorem expand_eq_union_iff {written : List Char} (hForm : plainForm written = pattern)
    (h : Glob.Forks pattern) (hRead : Glob.ofText pattern = .ok glob)
    (hReaches : tree.Reaches (placeOf root (Glob.plainSegments pattern))) :
    ∃ paths planned, tree.expand root written = .ok paths ∧
      tree.plan root (Glob.alternatives written) allListed = .ok planned ∧
        (paths = planned.mergeSort Path.comesBefore ↔ tree.WalksAgree root pattern) := by
  subst hForm
  have hForms : ∀ part ∈ Glob.alternatives (plainForm written), plainForm part = part := by
    intro part hPart
    obtain ⟨single, hSingle⟩ := Glob.exists_ofText_of_mem hRead hPart
    exact (h.behind_of_mem hPart hSingle).form
  rw [expand_plainForm h.form, plan_alternatives_plainForm hForms]
  exact union_of_forks h hRead hReaches

end FileTree

-- ---------------------------------------------------------------------------
-- A hidden alternative
-- ---------------------------------------------------------------------------

/-- A directory whose name starts with a dot, and one beside it. -/
def homesEntries : Entries :=
  .entry ".a".toList (.directory (.entry "x.ts".toList (.file .empty) .none))
    (.entry "b".toList (.directory (.entry "y.ts".toList (.file .empty) .none)) .none)

/-- The directories, seen from the root of a tree. -/
def homesTree : FileTree :=
  ⟨.directory homesEntries, []⟩

/-- A glob that names both directories. Neither the glob nor one of its segments starts with a
dot. -/
def homesGlob : List Char := "{.a,b}/*.ts".toList

theorem alternatives_homesGlob :
    Glob.alternatives homesGlob = [".a/*.ts".toList, "b/*.ts".toList] := by
  cbv

theorem forks_homesGlob : Glob.Forks homesGlob where
  form := by decide
  filled := by decide
  slash := by
    rw [alternatives_homesGlob]
    decide
  magic := by
    rw [alternatives_homesGlob]
    decide
  named := by
    rw [alternatives_homesGlob]
    decide

theorem reaches_homesTree : homesTree.Reaches (placeOf here (Glob.plainSegments homesGlob)) := by
  have hHere : homesTree.Reaches here := .of_here (by decide) (by decide)
  exact hHere.placeOf_nil ⟨by decide, by decide, by decide⟩

/-- The file in the hidden directory is matched by an alternative whose walk comes to it. The walk
for the glob does not. -/
theorem not_walksAgree_homesTree : ¬homesTree.WalksAgree here homesGlob := by
  intro hAgree
  have hBelow : homesTree.below (placeOf here (Glob.plainSegments homesGlob)) = homesEntries := by
    have hHere : homesTree.Reaches here := .of_here (by decide) (by decide)
    refine (hHere.below_placeOf_nil ⟨by decide, by decide, by decide⟩).trans ?_
    exact FileTree.below_of_directory (FileTree.node?_here homesEntries)
  have hFile : ([".a".toList, "x.ts".toList], ByteArray.empty) ∈ homesEntries.files :=
    List.mem_cons_self
  rw [← hBelow] at hFile
  have hText : relativeText here ((placeOf here (Glob.plainSegments homesGlob)).descend
      [".a".toList, "x.ts".toList]) = ".a/x.ts".toList := by
    decide
  have hHere := hAgree _ hFile
  dsimp only at hHere
  rw [hText] at hHere
  have hPart : ".a/*.ts".toList ∈ Glob.alternatives homesGlob := by
    rw [alternatives_homesGlob]
    exact List.mem_cons_self
  have hOwn : Glob.Matches ".a/*.ts".toList ".a/x.ts".toList := by
    refine ⟨_, by rw [Glob.alternatives_of_mem hPart]; exact List.mem_cons_self,
      ".a/".toList.map .literal ++ .anyText :: ".ts".toList.map .literal, by cbv, by cbv⟩
  have hReached := (hHere (Glob.matches_iff_exists_mem.2 ⟨_, hPart, hOwn⟩) (by cbv)).2
    ⟨_, hPart, hOwn, by decide⟩
  exact absurd hReached (by decide)

theorem exists_ofText_homesGlob : ∃ glob, Glob.ofText homesGlob = .ok glob :=
  ⟨_, by cbv⟩

/-- What the glob for the two directories stands for is less than the union of its alternatives. -/
theorem expand_homesTree :
    ∃ glob, plainForm homesGlob = homesGlob ∧ Glob.Forks homesGlob ∧
      Glob.ofText homesGlob = .ok glob ∧
      homesTree.Reaches (placeOf here (Glob.plainSegments homesGlob)) ∧
      ∃ paths planned, homesTree.expand here homesGlob = .ok paths ∧
        homesTree.plan here (Glob.alternatives homesGlob) allListed = .ok planned ∧
          (paths = planned.mergeSort Path.comesBefore ↔ homesTree.WalksAgree here homesGlob) := by
  obtain ⟨glob, hRead⟩ := exists_ofText_homesGlob
  exact ⟨glob, forks_homesGlob.form, forks_homesGlob, hRead, reaches_homesTree,
    FileTree.expand_eq_union_iff forks_homesGlob.form forks_homesGlob hRead reaches_homesTree⟩

/-- Not every glob stands for the union of its alternatives: the glob for the two directories
does not ask for names that start with a dot, and so its walk never enters the one whose name
does. -/
theorem not_expand_eq_union :
    ¬∀ (tree : FileTree) (root : Path) (pattern : List Char) (glob : Glob),
      Glob.Forks pattern → Glob.ofText pattern = .ok glob →
        tree.Reaches (placeOf root (Glob.plainSegments pattern)) →
          ∃ paths planned, tree.expand root pattern = .ok paths ∧
            tree.plan root (Glob.alternatives pattern) allListed = .ok planned ∧
              paths = planned.mergeSort Path.comesBefore := by
  intro h
  obtain ⟨glob, hRead⟩ := exists_ofText_homesGlob
  obtain ⟨paths, planned, hExpand, hPlan, hUnion⟩ :=
    h homesTree here homesGlob glob forks_homesGlob hRead reaches_homesTree
  obtain ⟨paths', planned', hExpand', hPlan', hAgree⟩ :=
    FileTree.union_of_forks forks_homesGlob hRead reaches_homesTree
  obtain rfl := Except.ok.inj (hExpand.symm.trans hExpand')
  obtain rfl := Except.ok.inj (hPlan.symm.trans hPlan')
  exact not_walksAgree_homesTree (hAgree.1 hUnion)

end Relocation

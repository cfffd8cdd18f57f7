import Mathlib.Data.List.TakeWhile
import Relocation.Proofs.PlainForms
import Relocation.Proofs.Walks

/-!
# Where walks start

The walk for a glob does not start at the root. It starts where the segments lead that stand in
front of the glob and are plain path, and it finds no file outside. It need not: what a glob
matches starts with the plain text in front of it, so a file that is matched lies below the place
where these segments lead. The same holds of any first few of them: where they lead, all the files
can be looked through, and those that are matched lie where the others lead on to.

## Results

* `Glob.plainSegments`, `Glob.Behind.startOfExpansion_eq`: the plain segments, and where they lead;
* `exists_of_matches`: what is matched lies where the plain segments lead;
* `FileTree.expand_takes`, `FileTree.expand_below`: what a glob stands for, as a choice among all
  files below a place, in order and free of repetitions.
-/

namespace Relocation

open Text

-- ---------------------------------------------------------------------------
-- Plain segments
-- ---------------------------------------------------------------------------

namespace Glob

variable {pattern : List Char}

/-- The segments in front of a glob that are plain path. -/
def plainSegments (pattern : List Char) : List (List Char) :=
  (segments '/' pattern).dropLast.takeWhile fun segment => !hasMagic segment

theorem slash_notMem_of_mem_plainSegments {segment : List Char}
    (h : segment ∈ plainSegments pattern) : '/' ∉ segment :=
  separator_notMem_of_mem_segments
    (List.mem_of_mem_dropLast ((List.takeWhile_sublist _).mem h))

/-- Behind the plain segments there is one more at least. -/
theorem exists_segments_eq (pattern : List Char) :
    ∃ rest ≠ [], segments '/' pattern = plainSegments pattern ++ rest := by
  obtain ⟨front, last, hSegments⟩ :=
    List.eq_nil_or_concat (segments '/' pattern) |>.resolve_left (segments_ne_nil '/' pattern)
  rw [List.concat_eq_append] at hSegments
  refine ⟨front.dropWhile (fun segment => !hasMagic segment) ++ [last], by simp, ?_⟩
  rw [plainSegments, hSegments, List.dropLast_concat, ← List.append_assoc,
    List.takeWhile_append_dropWhile]

/-- All segments of a plain path but the last one are plain segments. -/
theorem plainSegments_of_plain (h : hasMagic pattern = false) :
    plainSegments pattern = (segments '/' pattern).dropLast := by
  refine List.takeWhile_eq_self_iff.2 fun segment hMem => ?_
  rw [Bool.not_eq_true', hasMagic, List.any_eq_false]
  exact fun c hc => List.any_eq_false.1 h c (mem_of_mem_segments (List.mem_of_mem_dropLast hMem) hc)

/-- A glob starts with its plain segments and a slash behind each of them. -/
theorem exists_eq_terminated (pattern : List Char) :
    ∃ more, pattern = terminated '/' (plainSegments pattern) ++ more := by
  obtain ⟨rest, hRest, hSegments⟩ := exists_segments_eq pattern
  exact ⟨_, eq_terminated_append hSegments hRest⟩

theorem hasMagic_terminated {list : List (List Char)}
    (h : ∀ segment ∈ list, hasMagic segment = false) : hasMagic (terminated '/' list) = false := by
  rw [hasMagic, List.any_eq_false]
  intro c hMem
  obtain ⟨segment, hSegment, hc⟩ := List.mem_flatMap.1 hMem
  rcases List.mem_append.1 hc with hHere | hSlash
  · exact List.any_eq_false.1 (h segment hSegment) c hHere
  · rw [List.mem_singleton.1 hSlash]
    decide

theorem hasMagic_of_mem_plainSegments {segment : List Char} (h : segment ∈ plainSegments pattern) :
    hasMagic segment = false := by
  simpa using List.mem_takeWhile_imp h

/-- What a glob matches starts with the plain segments in front of it. -/
theorem Matches.exists_eq_terminated {text : List Char} (h : Matches pattern text) :
    ∃ rest, text = terminated '/' (plainSegments pattern) ++ rest := by
  obtain ⟨more, hMore⟩ := Glob.exists_eq_terminated pattern
  rw [hMore] at h
  exact h.starts (hasMagic_terminated fun segment => hasMagic_of_mem_plainSegments)

end Glob

-- ---------------------------------------------------------------------------
-- Bases
-- ---------------------------------------------------------------------------

/-- The path that segments lead along. A single empty segment stands for the slash behind it. -/
def baseOf (plain : List (List Char)) : List Char :=
  if plain = [[]] then ['/'] else joined '/' plain

/-- What is needed of segments so that a path that leads on from them is written as they are. -/
structure IsBase (plain : List (List Char)) : Prop where
  /-- No empty segment is at the end, unless it is the first one. -/
  filled : plain.getLast? = some [] → plain = [[]]
  /-- The path does not start with a dot. -/
  starts : plain.head? ≠ some ['.']
  free : ∀ segment ∈ plain, '/' ∉ segment ∧ '\\' ∉ segment

variable {root : Path} {pattern : List Char} {front behind : List (List Char)} {location : Location}

/-- The first segment means something, unless it is a slash. -/
theorem IsBase.ofSegment?_ne_none (h : IsBase front) (hRelative : front.head? ≠ some [])
    {segment : List Char} (hHead : front.head? = some segment) :
    Component.ofSegment? segment ≠ none := by
  intro hNone
  rcases Component.ofSegment?_eq_none_iff.1 hNone with rfl | rfl
  · exact hRelative hHead
  · exact h.starts hHead

theorem walkBase_eq (pattern : List Char) :
    walkBase pattern = baseOf (Glob.plainSegments pattern) := by
  have hPlain : (segments '/' pattern).dropLast.takeWhile (fun segment => !Glob.hasMagic segment)
      = Glob.plainSegments pattern := rfl
  unfold walkBase
  dsimp only
  rw [hPlain]
  by_cases hSlash : Glob.plainSegments pattern = [[]]
  · obtain ⟨more, hMore⟩ := Glob.exists_eq_terminated pattern
    have hHead : pattern.head? = some '/' := by
      rw [hMore, hSlash]
      rfl
    rw [hSlash, hHead]
    rfl
  rw [baseOf, if_neg hSlash]
  by_cases hNone : Glob.plainSegments pattern = []
  · -- a slash in front would make an empty segment, which is plain
    have hHead : pattern.head? ≠ some '/' := by
      intro hHead
      cases pattern with
      | nil => simp at hHead
      | cons c cs =>
        obtain rfl := Option.some.inj hHead
        obtain ⟨next, rest, hSegments⟩ := List.exists_cons_of_ne_nil (segments_ne_nil '/' cs)
        rw [Glob.plainSegments, segments_cons_self, hSegments] at hNone
        exact List.cons_ne_nil _ _ hNone
    rw [hNone]
    exact if_neg hHead
  · split
    · rename_i hNil
      exact absurd hNil (joined_ne_nil hNone hSlash)
    · rfl

theorem head_baseOf (hFree : ∀ segment ∈ front, '/' ∉ segment) :
    (baseOf front).head? = some '/' ↔ front.head? = some [] := by
  unfold baseOf
  split
  · rename_i hSlash
    rw [hSlash]
    exact ⟨fun _ => rfl, fun _ => rfl⟩
  · rename_i hSlash
    cases front with
    | nil => simp [joined]
    | cons first rest =>
      cases first with
      | nil =>
        cases rest with
        | nil => exact absurd rfl hSlash
        | cons => exact ⟨fun _ => rfl, fun _ => rfl⟩
      | cons c cs =>
        have hHead : (joined '/' ((c :: cs) :: rest)).head? = some c := by
          cases rest <;> rfl
        have hc : c ≠ '/' := by
          rintro rfl
          exact hFree _ List.mem_cons_self List.mem_cons_self
        rw [hHead]
        simp [hc]

theorem terminated_eq_baseOf (hSome : front ≠ []) (hFilled : front ≠ [[]])
    (hFree : ∀ segment ∈ front, '/' ∉ segment) : terminated '/' front = baseOf front ++ ['/'] := by
  rw [baseOf, if_neg hFilled, ← terminated_segments, segments_joined hSome hFree]

/-- The segments of the path are the ones that it leads along, and empty ones. -/
theorem mem_segments_baseOf_iff (hFree : ∀ segment ∈ front, '/' ∉ segment) {segment : List Char}
    (hFilled : segment ≠ []) : segment ∈ segments '/' (baseOf front) ↔ segment ∈ front := by
  by_cases hNone : front = []
  · rw [hNone]
    simp [baseOf, joined, segments, hFilled]
  by_cases hSlash : front = [[]]
  · rw [hSlash]
    simp [baseOf, segments, hFilled]
  · rw [baseOf, if_neg hSlash, segments_joined hNone hFree]

theorem lead_baseOf (h : IsBase front) :
    (Path.mk (baseOf front)).lead = terminated '/' front := by
  by_cases hSlash : front = [[]]
  · subst hSlash
    exact Path.lead_of_open (.inr rfl)
  rcases List.eq_nil_or_concat front with rfl | ⟨init, last, rfl⟩
  · exact Path.lead_of_open (.inl rfl)
  rw [List.concat_eq_append] at h hSlash ⊢
  have hLast : last ≠ [] := by
    rintro rfl
    exact hSlash (h.filled List.getLast?_concat)
  have hBase : baseOf (init ++ [last]) = terminated '/' init ++ last := by
    rw [baseOf, if_neg hSlash]
    exact joined_append '/' init (List.cons_ne_nil last [])
  have hOpen : ¬(Path.mk (baseOf (init ++ [last]))).IsOpen := by
    rw [hBase]
    rintro (hNil | hEnd)
    · exact hLast (List.append_eq_nil_iff.1 hNil).2
    · have hMem : '/' ∈ last := by
        refine List.mem_of_getLast? ?_
        rw [← List.getLast?_append_of_ne_nil (terminated '/' init) hLast]
        exact hEnd
      exact (h.free last (by simp)).1 hMem
  rw [Path.lead_of_not_open hOpen,
    terminated_eq_baseOf (by simp) hSlash fun segment hMem => (h.free segment hMem).1]

/-- Where segments lead that names follow. -/
theorem join_baseOf_append (h : IsBase front) (hNames : ∀ name ∈ location, IsNamed name) :
    root.join ⟨baseOf (front ++ location)⟩ = (root.join ⟨baseOf front⟩).descend location := by
  rw [← Path.join_descend]
  by_cases hSome : location = []
  · subst hSome
    rw [List.append_nil]
    rfl
  have hSlash : front ++ location ≠ [[]] := by
    obtain ⟨first, others, rfl⟩ := List.exists_cons_of_ne_nil hSome
    intro hSame
    have hMem : first ∈ front ++ first :: others :=
      List.mem_append_right _ List.mem_cons_self
    rw [hSame] at hMem
    exact (hNames first List.mem_cons_self).ne_nil (List.mem_singleton.1 hMem)
  rw [Path.descend_eq hSome hNames, lead_baseOf h, baseOf, if_neg hSlash,
    joined_append '/' front hSome]

/-- The place where segments lead, seen from the root. -/
def placeOf (root : Path) (plain : List (List Char)) : Path := root.join ⟨baseOf plain⟩

/-- The walk for a glob starts where its plain segments lead. -/
theorem startOfExpansion_of_magic (h : Glob.hasMagic pattern = true) (root : Path) :
    startOfExpansion root pattern = placeOf root (Glob.plainSegments pattern) := by
  rw [startOfExpansion, if_pos h, walkBase_eq]
  rfl

theorem isBase_nil : IsBase [] where
  filled := by simp
  starts := by simp
  free := by simp

theorem placeOf_nil (root : Path) : placeOf root [] = ⟨root.lead⟩ := by
  rw [← List.append_nil root.lead]
  exact Path.join_eq (by simp [baseOf, joined])

theorem lead_placeOf (h : IsBase front) :
    (placeOf root front).lead
      = if front.head? = some [] then terminated '/' front
        else root.lead ++ terminated '/' front := by
  have hHead := head_baseOf fun segment hMem => (h.free segment hMem).1
  rw [placeOf]
  split
  · rename_i hRoot
    rw [Path.join_of_slash (hHead.2 hRoot), lead_baseOf h]
  · rename_i hRoot
    rw [Path.lead_join fun hSlash => hRoot (hHead.1 hSlash), lead_baseOf h]

-- ---------------------------------------------------------------------------
-- Relative texts
-- ---------------------------------------------------------------------------

/-- What is left of the path behind the root, with slashes only. It is the whole path if that does
not lead through the root. -/
def relativeText (root path : Path) : List Char :=
  withSlashes ((path.relativeTo? root).getD path.text)

theorem backslash_notMem (hFront : ∀ segment ∈ front, '\\' ∉ segment)
    (hNames : ∀ name ∈ location, isWritable name = true) :
    '\\' ∉ terminated '/' front ++ joined '/' location := by
  intro hMem
  rcases List.mem_append.1 hMem with hHere | hHere
  · rcases mem_of_mem_terminated hHere with hSlash | ⟨segment, hSegment, hIn⟩
    · contradiction
    · exact hFront segment hSegment hIn
  · rcases mem_of_mem_joined hHere with hSlash | ⟨name, hName, hIn⟩
    · contradiction
    · exact (isWritable_spec (hNames name hName)).2.1 hIn

/-- Behind the root names are left as they are. -/
theorem relativeText_lead (hSome : location ≠ []) (hNames : ∀ name ∈ location, IsNamed name)
    (hFree : ∀ name ∈ location, '\\' ∉ name) :
    relativeText root ((Path.mk root.lead).descend location) = joined '/' location := by
  have hSlashes : '\\' ∉ joined '/' location := by
    intro hMem
    rcases mem_of_mem_joined hMem with hSlash | ⟨name, hName, hIn⟩
    · contradiction
    · exact hFree name hName hIn
  rw [relativeText, Path.relativeTo?_descend_lead root hSome hNames, Option.getD_some,
    withSlashes_of_notMem hSlashes]

theorem segments_terminated_append (h : IsBase front) (hSome : location ≠ [])
    (hNames : ∀ name ∈ location, isWritable name = true) :
    segments '/' (terminated '/' front ++ joined '/' location) = front ++ location := by
  rw [segments_terminated fun segment hMem => (h.free segment hMem).1,
    segments_joined hSome fun name hMem => (isWritable_spec (hNames name hMem)).1.2]

/-- Behind a place that is no path from the root of the tree, what is left is written as it leads
on from the root. -/
theorem relativeText_descend (h : IsBase front) (hRelative : front.head? ≠ some [])
    (hSome : location ≠ []) (hNames : ∀ name ∈ location, isWritable name = true) :
    relativeText root ((placeOf root front).descend location)
      = terminated '/' front ++ joined '/' location := by
  have hSegments := segments_terminated_append h hSome hNames
  have hNamed : ∀ name ∈ location, IsNamed name := fun name hMem =>
    (isWritable_spec (hNames name hMem)).1
  have hPath : (placeOf root front).descend location
      = ⟨root.lead ++ (terminated '/' front ++ joined '/' location)⟩ := by
    rw [Path.descend_eq hSome hNamed, lead_placeOf h, if_neg hRelative, List.append_assoc]
  have hMeaning : ∀ segment ∈ (front ++ location).head?, Component.ofSegment? segment ≠ none := by
    intro segment hHead
    cases front with
    | nil =>
      rw [(hNamed segment (List.mem_of_mem_head? hHead)).ofSegment?]
      exact Option.some_ne_none _
    | cons => exact h.ofSegment?_ne_none hRelative hHead
  rw [relativeText, hPath, Path.relativeTo?_lead root (by rwa [hSegments])]
  exact withSlashes_of_notMem
    (backslash_notMem (fun segment hMem => (h.free segment hMem).2) hNames)

/-- Behind a place that is a path from the root of the tree, what is left is that path, or it does
not start with a slash. -/
theorem relativeText_of_slash (h : IsBase front) (hRoot : front.head? = some [])
    (hSome : location ≠ []) (hNames : ∀ name ∈ location, isWritable name = true) :
    relativeText root ((placeOf root front).descend location)
        = terminated '/' front ++ joined '/' location ∨
      (relativeText root ((placeOf root front).descend location)).head? ≠ some '/' := by
  have hPath : (placeOf root front).descend location
      = ⟨terminated '/' front ++ joined '/' location⟩ := by
    rw [Path.descend_eq hSome fun name hMem => (isWritable_spec (hNames name hMem)).1,
      lead_placeOf h, if_pos hRoot]
  have hFree := backslash_notMem (fun segment hMem => (h.free segment hMem).2) hNames
  rw [relativeText, hPath]
  cases hLeft : (Path.mk (terminated '/' front ++ joined '/' location)).relativeTo? root with
  | none => exact .inl (withSlashes_of_notMem hFree)
  | some rest =>
    have hSuffix := Path.suffix_of_relativeTo? hLeft
    have hSame : withSlashes rest = rest :=
      withSlashes_of_notMem fun hMem => hFree (hSuffix.subset hMem)
    rw [Option.getD_some, hSame]
    exact Path.head_of_relativeTo? hLeft

/-- What is matched lies where the plain segments lead. -/
theorem exists_of_matches (h : IsBase front) (hSome : location ≠ [])
    (hNames : ∀ name ∈ location, isWritable name = true)
    (hPlain : Glob.plainSegments pattern = front ++ behind)
    (hMatch : Glob.Matches pattern (relativeText root ((placeOf root front).descend location))) :
    ∃ rest ≠ [], location = behind ++ rest := by
  obtain ⟨more, hMore⟩ := hMatch.exists_eq_terminated
  rw [hPlain] at hMore
  have hText : relativeText root ((placeOf root front).descend location)
      = terminated '/' front ++ joined '/' location := by
    by_cases hRoot : front.head? = some []
    · refine (relativeText_of_slash h hRoot hSome hNames).resolve_right ?_
      obtain ⟨rest, rfl⟩ : ∃ rest, front = [] :: rest := by
        cases front with
        | nil => simp at hRoot
        | cons first rest => exact ⟨rest, by rw [Option.some.inj hRoot]⟩
      rw [hMore]
      exact fun hHead => hHead rfl
    · exact relativeText_descend h hRoot hSome hNames
  rw [hText, terminated_append, List.append_assoc] at hMore
  have hBehind := List.append_cancel_left hMore
  refine ⟨segments '/' more, segments_ne_nil '/' more, ?_⟩
  have hFree : ∀ segment ∈ behind, '/' ∉ segment := by
    intro segment hMem
    have hMember : segment ∈ Glob.plainSegments pattern := by
      rw [hPlain]
      exact List.mem_append_right _ hMem
    exact Glob.slash_notMem_of_mem_plainSegments hMember
  rw [← segments_terminated hFree, ← hBehind,
    segments_joined hSome fun name hMem => (isWritable_spec (hNames name hMem)).1.2]

/-- The place itself is not matched: the slash behind it is missing. -/
theorem not_matches_placeOf (hSome : front ≠ []) (hFilled : front ≠ [[]])
    (hPlain : Glob.plainSegments pattern = front ++ behind) :
    ¬Glob.Matches pattern (relativeText root (placeOf root front)) := by
  have hFree : ∀ segment ∈ front, '/' ∉ segment := by
    intro segment hMem
    have hMember : segment ∈ Glob.plainSegments pattern := by
      rw [hPlain]
      exact List.mem_append_left _ hMem
    exact Glob.slash_notMem_of_mem_plainSegments hMember
  -- what is left of the place is no longer than the segments that lead there
  have hLength : (relativeText root (placeOf root front)).length ≤ (baseOf front).length := by
    rw [relativeText, withSlashes, List.length_map, placeOf]
    by_cases hRoot : (baseOf front).head? = some '/'
    · rw [Path.join_of_slash hRoot]
      cases hLeft : (Path.mk (baseOf front)).relativeTo? root with
      | none => exact Nat.le_refl _
      | some rest => exact (Path.suffix_of_relativeTo? hLeft).length_le
    · rw [Path.join_eq hRoot]
      obtain ⟨left, hLeft, hEnd⟩ := Path.exists_relativeTo?_lead root (baseOf front)
      rw [hLeft]
      exact hEnd.length_le
  intro hMatch
  obtain ⟨rest, hRest⟩ := hMatch.exists_eq_terminated
  rw [hRest, hPlain, terminated_append, terminated_eq_baseOf hSome hFilled hFree] at hLength
  simp only [List.length_append, List.length_singleton] at hLength
  omega

-- ---------------------------------------------------------------------------
-- What globs stand for
-- ---------------------------------------------------------------------------

/-- A glob in plain form, with its meaning and with its plain segments in two parts: those that lead
to a place, and names that lead on from there. -/
structure Glob.Behind (front : List (List Char)) (names : Location) (pattern : List Char)
    (glob : Glob) : Prop where
  base : IsBase front
  named : ∀ name ∈ names, IsNamed name
  plain : plainSegments pattern = front ++ names
  form : plainForm pattern = pattern
  magic : hasMagic pattern = true
  read : ofText pattern = .ok glob

variable {names : Location} {glob : Glob}

namespace Glob.Behind

/-- The walk for the glob starts where the names lead from the place. -/
theorem startOfExpansion_eq (h : Behind front names pattern glob) (root : Path) :
    startOfExpansion root pattern = (placeOf root front).descend names := by
  rw [startOfExpansion_of_magic h.magic, h.plain]
  exact join_baseOf_append h.base h.named

/-- A glob without slashes has no plain segments. -/
theorem names_eq_nil (h : Behind front names pattern glob) (hSlash : '/' ∉ pattern) :
    names = [] := by
  have hNone : plainSegments pattern = [] := by
    rw [plainSegments, segments_of_notMem hSlash]
    rfl
  rw [h.plain] at hNone
  exact (List.append_eq_nil_iff.1 hNone).2

end Glob.Behind

/-- What is held against a glob: the relative text of the path, or the name of the file if there is
no slash in the glob. -/
def candidate (root : Path) (pattern : List Char) (place : Path) (location : Location) :
    List Char :=
  if '/' ∈ pattern then relativeText root (place.descend location) else location.getLastD []

/-- Whether a glob stands for a file below a place, from which some of its plain segments lead on:
the file is matched and not left out, and it is reached from where these segments lead. -/
def Takes (root : Path) (pattern : List Char) (place : Path) (names : Location)
    (location : Location) : Prop :=
  Glob.Matches pattern (candidate root pattern place location) ∧
    isLeftOut (relativeText root (place.descend location)) = false ∧
    isReached (asksForDots pattern) (location.drop names.length) = true

namespace FileTree

variable {tree : FileTree} {entries : Entries} {node : Node} {paths : List Path} {path : Path}

theorem isWanted_iff (h : Glob.Behind front names pattern glob) (place : Path)
    (hSome : names ++ location ≠ []) (hNames : ∀ name ∈ names ++ location, isWritable name = true) :
    isWanted pattern glob location (relativeText root (place.descend (names ++ location))) = true ↔
      Glob.Matches pattern (candidate root pattern place (names ++ location)) ∧
        isLeftOut (relativeText root (place.descend (names ++ location))) = false := by
  rw [isWanted, Bool.and_eq_true, Glob.isMatch_iff h.read, Bool.not_eq_true', matchesNames,
    candidate]
  by_cases hSlash : '/' ∈ pattern
  · rw [if_pos hSlash, if_neg (by simpa using hSlash)]
  · obtain rfl := h.names_eq_nil hSlash
    rw [List.nil_append] at hSome hNames ⊢
    have hLast : location.getLast? = some (location.getLast hSome) :=
      List.getLast?_eq_some_getLast hSome
    have hBackslash : '\\' ∉ location.getLast hSome :=
      (isWritable_spec (hNames _ (List.getLast_mem hSome))).2.1
    rw [if_neg hSlash, if_pos (by simpa using hSlash), hLast, Option.map_some, Option.getD_some,
      withSlashes_of_notMem hBackslash, List.getLastD_eq_getLast?, hLast, Option.getD_some]

/-- The files below a node that a glob stands for, in the order of the walk. The node is where the
walk starts. -/
def matched (root : Path) (pattern : List Char) (glob : Glob) (node : Node) : List Path :=
  (node.walk (asksForDots pattern)).filterMap fun location =>
    let path := (startOfExpansion root pattern).descend location
    if isWanted pattern glob location (relativeText root path) then some path else none

/-- If every directory can be listed, a glob stands for files. -/
theorem expand_of_glob (h : Glob.Behind front names pattern glob) (tree : FileTree) (root : Path) :
    tree.expand root pattern
      = .ok ((tree.node? (startOfExpansion root pattern)).elim [] fun node =>
          (matched root pattern glob node).mergeSort Path.comesBefore) := by
  rw [expand, h.form, if_pos h.magic, h.read]
  dsimp only
  rw [expandGlob]
  cases tree.node? (startOfExpansion root pattern) with
  | none => rfl
  | some node =>
    have hListed : (node.listed (asksForDots pattern)).findSome? (fun location =>
        let path := (startOfExpansion root pattern).descend location
        (allListed path).map (ExpansionFault.walk pattern path)) = none :=
      List.findSome?_eq_none_iff.2 fun _ _ => rfl
    dsimp only
    rw [hListed]
    rfl

theorem mem_matched_iff :
    path ∈ matched root pattern glob node ↔
      ∃ location ∈ node.walk (asksForDots pattern),
        isWanted pattern glob location
            (relativeText root ((startOfExpansion root pattern).descend location)) = true ∧
          path = (startOfExpansion root pattern).descend location := by
  rw [matched, List.mem_filterMap]
  dsimp only
  constructor
  · rintro ⟨location, hMem, hPath⟩
    split at hPath
    · rename_i hWanted
      exact ⟨location, hMem, hWanted, (Option.some.inj hPath).symm⟩
    · contradiction
  · rintro ⟨location, hMem, hWanted, rfl⟩
    exact ⟨location, hMem, if_pos hWanted⟩

/-- A walk from where the plain segments lead finds what the glob stands for among all the files
below the place. -/
theorem exists_matched_iff (h : Glob.Behind front names pattern glob)
    (hHolds : tree.Holds (placeOf root front) entries) :
    (∃ node, tree.node? (startOfExpansion root pattern) = some node ∧
        path ∈ matched root pattern glob node) ↔
      ∃ file ∈ entries.files, path = (placeOf root front).descend file.1 ∧
        Takes root pattern (placeOf root front) names file.1 := by
  have hStart := h.startOfExpansion_eq root
  constructor
  · rintro ⟨node, hNode, hMem⟩
    obtain ⟨location, hWalk, hWanted, rfl⟩ := mem_matched_iff.1 hMem
    rw [hStart] at hNode hWanted ⊢
    rw [← Path.descend_append] at hWanted ⊢
    obtain ⟨hReached, bytes, hFile⟩ := (hHolds.exists_walk_iff h.named).1 ⟨node, hNode, hWalk⟩
    obtain ⟨hMatch, hKept⟩ := (isWanted_iff h _ (Entries.ne_nil_of_mem_files hFile)
      (hHolds.isWritable hFile)).1 hWanted
    refine ⟨_, hFile, rfl, hMatch, hKept, ?_⟩
    rwa [List.drop_left]
  · rintro ⟨⟨location, bytes⟩, hFile, rfl, hMatch, hKept, hReached⟩
    have hSome := Entries.ne_nil_of_mem_files hFile
    have hNames := hHolds.isWritable hFile
    obtain ⟨rest, rfl⟩ : ∃ rest, location = names ++ rest := by
      by_cases hSlash : '/' ∈ pattern
      · rw [candidate, if_pos hSlash] at hMatch
        obtain ⟨rest, -, hRest⟩ := exists_of_matches h.base hSome hNames h.plain hMatch
        exact ⟨rest, hRest⟩
      · exact ⟨location, by rw [h.names_eq_nil hSlash]; rfl⟩
    rw [List.drop_left] at hReached
    obtain ⟨node, hNode, hWalk⟩ := (hHolds.exists_walk_iff h.named).2 ⟨hReached, bytes, hFile⟩
    refine ⟨node, by rwa [hStart], mem_matched_iff.2 ⟨rest, hWalk, ?_, ?_⟩⟩
    · rw [hStart, ← Path.descend_append]
      exact (isWanted_iff h _ hSome hNames).2 ⟨hMatch, hKept⟩
    · rw [hStart, ← Path.descend_append]

/-- No file is found twice. -/
theorem pairwise_matched (h : Glob.Behind front names pattern glob)
    (hHolds : tree.Holds (placeOf root front) entries)
    (hNode : tree.node? (startOfExpansion root pattern) = some node) :
    (matched root pattern glob node).Pairwise
      fun path other => path.components ≠ other.components := by
  have hStart := h.startOfExpansion_eq root
  have hNames {location : Location} (hMem : location ∈ node.walk (asksForDots pattern)) :
      ∀ name ∈ names ++ location, IsNamed name := by
    rw [hStart] at hNode
    obtain ⟨-, bytes, hFile⟩ := (hHolds.exists_walk_iff h.named).1 ⟨node, hNode, hMem⟩
    exact fun name hName => (isWritable_spec (hHolds.isWritable hFile name hName)).1
  have hApart : (node.walk (asksForDots pattern)).Pairwise fun location other =>
      ((startOfExpansion root pattern).descend location).components
        ≠ ((startOfExpansion root pattern).descend other).components := by
    refine (Node.nodup_walk (isProper_of_node? hHolds.proper hNode) _).imp_of_mem ?_
    intro location other hMem hMem' hDifferent hSame
    rw [hStart, ← Path.descend_append, ← Path.descend_append] at hSame
    exact hDifferent (List.append_cancel_left
      (Path.descend_injective (hNames hMem) (hNames hMem') hSame))
  refine hApart.filterMap _ ?_
  intro location other hDifferent path hPath path' hPath'
  dsimp only at hPath hPath'
  split at hPath
  · split at hPath'
    · rw [← Option.some.inj hPath, ← Option.some.inj hPath']
      exact hDifferent
    · contradiction
  · contradiction

/-- What a glob stands for, in the order of the paths. -/
theorem expand_takes (h : Glob.Behind front names pattern glob)
    (hHolds : tree.Holds (placeOf root front) entries) :
    ∃ paths, tree.expand root pattern = .ok paths ∧
      paths.Pairwise (fun path other =>
        path.comesBefore other = true ∧ path.components ≠ other.components) ∧
      ∀ path, path ∈ paths ↔ ∃ file ∈ entries.files, path = (placeOf root front).descend file.1 ∧
        Takes root pattern (placeOf root front) names file.1 := by
  rw [expand_of_glob h]
  refine ⟨_, rfl, ?_, ?_⟩
  · cases hNode : tree.node? (startOfExpansion root pattern) with
    | none => exact .nil
    | some node =>
      exact Path.pairwise_mergeSort (pairwise_matched h hHolds hNode)
  · intro path
    rw [← exists_matched_iff h hHolds]
    cases hNode : tree.node? (startOfExpansion root pattern) with
    | none => simp
    | some node => simp [List.mem_mergeSort]

/-- If the place is no directory, nothing is matched. -/
theorem matched_eq_nil (h : Glob.Behind front names pattern glob)
    (hReaches : tree.Reaches (placeOf root front))
    (hPlace : ¬∃ entries, tree.node? (placeOf root front) = some (.directory entries))
    (hNode : tree.node? (startOfExpansion root pattern) = some node) :
    matched root pattern glob node = [] := by
  have hStart := h.startOfExpansion_eq root
  rw [hStart] at hNode
  obtain rfl : names = [] := by
    by_contra hSome
    exact hPlace (exists_directory_of_descend hReaches.proper hReaches.filled hSome h.named hNode)
  cases node with
  | directory entries => exact absurd ⟨entries, hNode⟩ hPlace
  | link target => rfl
  | file bytes =>
    have hOpen : ¬(Path.mk (baseOf front)).IsOpen := by
      intro hOpen
      have hPlaceOpen : (placeOf root front).IsOpen := Path.isOpen_join hOpen
      rcases hPlaceOpen with hNil | hLast
      · exact hReaches.filled hNil
      · exact getLast_ne_of_file hReaches.proper hNode hLast
    have hNone : isWanted pattern glob [] (relativeText root (placeOf root front)) = false := by
      rw [isWanted, Bool.and_eq_false_iff]
      refine .inl (Bool.eq_false_iff.2 fun hMatch => ?_)
      dsimp only [List.getLast?_nil, Option.map_none, Option.getD_none] at hMatch
      rw [ite_self, Glob.isMatch_iff h.read] at hMatch
      exact not_matches_placeOf (fun hNil => hOpen (.inl (by rw [hNil]; rfl)))
        (fun hSlash => hOpen (.inr (by rw [hSlash]; rfl))) h.plain hMatch
    rw [matched, hStart]
    show ([[]] : List Location).filterMap _ = []
    exact List.filterMap_cons_none (if_neg (by rw [Bool.not_eq_true]; exact hNone))

/-- The path leads to a file below a place that the glob takes. -/
def StandsFor (tree : FileTree) (root : Path) (pattern : List Char) (place : Path)
    (names : Location) (path : Path) : Prop :=
  ∃ file ∈ (tree.below place).files, path = place.descend file.1 ∧
    Takes root pattern place names file.1

theorem standsFor_descend_iff {place : Path} (h : tree.Reaches place)
    {file : Location × ByteArray} (hFile : file ∈ (tree.below place).files) :
    tree.StandsFor root pattern place names (place.descend file.1) ↔
      Takes root pattern place names file.1 := by
  constructor
  · rintro ⟨other, hOther, hPath, hTaken⟩
    rwa [h.location_eq hFile hOther (congrArg Path.components hPath)]
  · intro hTaken
    exact ⟨file, hFile, rfl, hTaken⟩

/-- **Globs below a place.** A glob stands for the files below a place that its walk comes to and
that it matches, in the order of their paths and without repetition, also where the place is no
directory and has no files below it.

`h` says that the plain segments of the glob lead to the place and on by the names, in which case
its walk starts there, and `hReaches` that the files below the place can be reached. -/
theorem expand_below (h : Glob.Behind front names pattern glob)
    (hReaches : tree.Reaches (placeOf root front)) :
    ∃ paths, tree.expand root pattern = .ok paths ∧
      paths.Pairwise (fun path other =>
        path.comesBefore other = true ∧ path.components ≠ other.components) ∧
      ∀ path, path ∈ paths ↔ tree.StandsFor root pattern (placeOf root front) names path := by
  unfold StandsFor
  by_cases hPlace : ∃ entries, tree.node? (placeOf root front) = some (.directory entries)
  · obtain ⟨entries, hEntries⟩ := hPlace
    rw [below_of_directory hEntries]
    exact expand_takes h (hReaches.holds hEntries)
  · refine ⟨[], ?_, .nil, ?_⟩
    · rw [expand_of_glob h]
      cases hNode : tree.node? (startOfExpansion root pattern) with
      | none => rfl
      | some node =>
        rw [Option.elim_some, matched_eq_nil h hReaches hPlace hNode, List.mergeSort_nil]
    · rw [below_of_not_directory hPlace]
      simp [Entries.files]

end FileTree

end Relocation

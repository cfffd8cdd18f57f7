import Relocation.Proofs.Apart
import Relocation.Proofs.Text.Joins

/-!
# Paths that lead on

A path is led on from by names, and what it is then written as differs with how it ends: a slash is
put between, unless there is one or nothing is in front. Read as components, it is the same each
time: those of the path in front, and the names. So of the paths that lead on from one place by
names no two are the same, and what is left of one behind the place is the names.

## Results

* `Path.join_assoc`: it makes no difference which of two paths is led on first;
* `Path.descend_eq`, `Path.components_descend`: how a path that leads on by names is written, and
  what it means;
* `Path.relativeTo?_lead`: what is left of a path behind the place that it leads on from;
* `Path.head_of_relativeTo?`: what is left starts with a segment that means something;
* `Path.comesBefore_total`, `Path.comesBefore_trans`, `Path.components_eq_of_comesBefore`: the order
  of paths is a total order of their components.
-/

namespace Relocation

open Text

variable {path root : Path} {text rest : List Char} {segment : List Char} {name : Name}
  {location : Location}

-- ---------------------------------------------------------------------------
-- Names
-- ---------------------------------------------------------------------------

/-- Whether the segment is a name in every path: it means something by itself, it is not two dots,
and there is no slash in it. -/
def IsNamed (segment : List Char) : Prop :=
  segment ∉ [[], ['.'], ['.', '.']] ∧ '/' ∉ segment

instance : Decidable (IsNamed segment) := instDecidableAnd

namespace IsNamed

theorem ne_nil (h : IsNamed name) : name ≠ [] := by
  rintro rfl
  exact h.1 (by decide)

theorem stays (h : IsNamed name) : ¬(name = [] ∨ name = ['.']) := by
  rintro (rfl | rfl)
  · exact h.1 (by decide)
  · exact h.1 (by decide)

theorem not_up (h : IsNamed name) : name ≠ ['.', '.'] := by
  rintro rfl
  exact h.1 (by decide)

theorem ofSegment? (h : IsNamed name) : Component.ofSegment? name = some (.name name) :=
  Component.ofSegment?_of_name h.stays h.not_up

theorem head_ne (h : IsNamed name) : name.head? ≠ some '/' := by
  intro hHead
  exact h.2 (List.mem_of_mem_head? hHead)

end IsNamed

/-- Components are told apart by their words. -/
theorem Component.word_injective : Function.Injective Component.word := by
  intro component other h
  cases component with
  | name text =>
    cases other with
    | name text' =>
      have hText : text = text' :=
        List.map_injective_iff.2 (fun _ _ => Char.toNat_inj.1) (List.cons.inj h).2
      rw [hText]
    | root | here | up => simp [word] at h
  | root | here | up => cases other <;> first | rfl | simp [word] at h

namespace Path

-- ---------------------------------------------------------------------------
-- How paths are written
-- ---------------------------------------------------------------------------

/-- Whether nothing has to be put between the path and what it leads on to. -/
def IsOpen (path : Path) : Prop := path.text = [] ∨ path.text.getLast? = some '/'

instance : Decidable path.IsOpen := instDecidableOr

/-- What stands in front of a path that leads on. -/
def lead (path : Path) : List Char := if path.IsOpen then path.text else path.text ++ ['/']

theorem lead_of_open (h : path.IsOpen) : path.lead = path.text := if_pos h

theorem lead_of_not_open (h : ¬path.IsOpen) : path.lead = path.text ++ ['/'] := if_neg h

theorem isOpen_lead (path : Path) : (Path.mk path.lead).IsOpen := by
  by_cases h : path.IsOpen
  · rw [lead_of_open h]
    exact h
  · rw [lead_of_not_open h]
    exact .inr List.getLast?_concat

/-- A path that is not empty starts at the root if what it leads on to does. -/
theorem isAbsolute_lead (hText : path.text ≠ []) (text : List Char) :
    (Path.mk (path.lead ++ text)).isAbsolute = path.isAbsolute := by
  obtain ⟨c, cs, hHead⟩ := List.exists_cons_of_ne_nil hText
  rw [isAbsolute, isAbsolute, lead]
  split <;> rw [hHead] <;> rfl

/-- A path that does not start at the root leads on. -/
theorem join_eq (h : text.head? ≠ some '/') : path.join ⟨text⟩ = ⟨path.lead ++ text⟩ := by
  have hRelative : ¬(Path.mk text).isAbsolute = true := by
    rw [isAbsolute, beq_iff_eq]
    exact h
  rw [join, if_neg hRelative]
  show (if path.IsOpen then (⟨path.text ++ text⟩ : Path) else ⟨path.text ++ '/' :: text⟩) = _
  by_cases hOpen : path.IsOpen
  · rw [if_pos hOpen, lead_of_open hOpen]
  · rw [if_neg hOpen, lead_of_not_open hOpen, List.append_assoc]
    rfl

/-- A path that starts at the root leads to itself. -/
theorem join_of_slash (h : text.head? = some '/') : path.join ⟨text⟩ = ⟨text⟩ := by
  rw [join, if_pos (by rw [isAbsolute, h]; rfl)]

/-- A path that has been led on leads on from where it was led to. -/
theorem lead_join (h : text.head? ≠ some '/') :
    (path.join ⟨text⟩).lead = path.lead ++ (Path.mk text).lead := by
  rw [join_eq h]
  by_cases hText : text = []
  · subst hText
    rw [List.append_nil, lead_of_open path.isOpen_lead]
    exact (List.append_nil _).symm
  · have hLast : (path.lead ++ text).getLast? = text.getLast? :=
      List.getLast?_append_of_ne_nil _ hText
    have hSome : path.lead ++ text ≠ [] := List.append_ne_nil_of_right_ne_nil _ hText
    by_cases hSlash : text.getLast? = some '/'
    · rw [lead_of_open (.inr (hLast.trans hSlash)), lead_of_open (.inr hSlash)]
    · have hJoined : ¬(Path.mk (path.lead ++ text)).IsOpen := by
        rintro (hNil | hEnd)
        · exact hSome hNil
        · exact hSlash (hLast.symm.trans hEnd)
      rw [lead_of_not_open hJoined, lead_of_not_open (not_or.2 ⟨hText, hSlash⟩), List.append_assoc]

/-- What leads on to an open path is open. -/
theorem isOpen_join (h : (Path.mk text).IsOpen) : (path.join ⟨text⟩).IsOpen := by
  by_cases hRoot : text.head? = some '/'
  · rwa [join_of_slash hRoot]
  rw [join_eq hRoot]
  rcases h with hNil | hLast
  · rw [show text = [] from hNil, List.append_nil]
    exact path.isOpen_lead
  · have hSome : text ≠ [] := by
      rintro rfl
      contradiction
    exact .inr ((List.getLast?_append_of_ne_nil _ hSome).trans hLast)

theorem lead_name (h : IsNamed name) : (Path.mk name).lead = name ++ ['/'] := by
  refine lead_of_not_open (not_or.2 ⟨h.ne_nil, fun hLast => h.2 (List.mem_of_getLast? hLast)⟩)

/-- A path that leads on by names is written with a slash in front of each of them. -/
theorem descend_eq (hSome : location ≠ []) (h : ∀ name ∈ location, IsNamed name) :
    path.descend location = ⟨path.lead ++ joined '/' location⟩ := by
  induction location generalizing path with
  | nil => exact absurd rfl hSome
  | cons name location ih =>
    have hName := h name List.mem_cons_self
    show (path.join ⟨name⟩).descend location = _
    cases location with
    | nil => exact join_eq hName.head_ne
    | cons next others =>
      rw [ih (List.cons_ne_nil next others) fun other hMem => h other (List.mem_cons_of_mem _ hMem),
        lead_join hName.head_ne, lead_name hName, joined_cons _ _ (List.cons_ne_nil next others)]
      simp only [List.append_assoc, List.singleton_append]

theorem descend_append (path : Path) (location more : Location) :
    path.descend (location ++ more) = (path.descend location).descend more :=
  List.foldl_append

theorem isAbsolute_mk_iff : (Path.mk text).isAbsolute = true ↔ text.head? = some '/' := by
  rw [isAbsolute, beq_iff_eq]

/-- What a path that does not start at the root leads on to does not either. -/
theorem head_lead_append (h : text.head? ≠ some '/') (hRest : rest.head? ≠ some '/') :
    ((Path.mk text).lead ++ rest).head? ≠ some '/' := by
  by_cases hText : text = []
  · subst hText
    exact hRest
  · rwa [ne_eq, ← isAbsolute_mk_iff, isAbsolute_lead hText, isAbsolute_mk_iff]

/-- It makes no difference which of two paths is led on first. -/
theorem join_assoc (path first second : Path) :
    (path.join first).join second = path.join (first.join second) := by
  obtain ⟨text⟩ := first
  obtain ⟨rest⟩ := second
  by_cases hRest : rest.head? = some '/'
  · rw [join_of_slash hRest, join_of_slash hRest, join_of_slash hRest]
  rw [join_eq hRest, join_eq hRest]
  by_cases hText : text.head? = some '/'
  · have hJoined : ((Path.mk text).lead ++ rest).head? = some '/' := by
      rw [← isAbsolute_mk_iff, isAbsolute_lead (by rintro rfl; contradiction), isAbsolute_mk_iff]
      exact hText
    rw [join_of_slash hText, join_of_slash hJoined]
  · rw [lead_join hText, join_eq (head_lead_append hText hRest), List.append_assoc]

theorem join_descend (path other : Path) (location : Location) :
    path.join (other.descend location) = (path.join other).descend location := by
  induction location generalizing other with
  | nil => rfl
  | cons name location ih =>
    show path.join ((other.join ⟨name⟩).descend location) = _
    rw [ih, ← join_assoc]
    rfl

/-- What stands in front of a path that is led to stays as it is when the path goes on. -/
theorem exists_join_append (path : Path) (hText : text ≠ []) :
    ∃ start, ∀ more, path.join ⟨text ++ more⟩ = ⟨start ++ (text ++ more)⟩ := by
  have hHead (more : List Char) : (text ++ more).head? = text.head? :=
    List.head?_append_of_ne_nil _ hText
  by_cases hSlash : text.head? = some '/'
  · exact ⟨[], fun more => join_of_slash ((hHead more).trans hSlash)⟩
  · refine ⟨path.lead, fun more => join_eq ?_⟩
    rwa [hHead]

/-- A path starts at the root if what it leads on by does, or if it does so already. -/
theorem isAbsolute_join (path other : Path) :
    (path.join other).isAbsolute = (other.isAbsolute || path.isAbsolute) := by
  obtain ⟨text⟩ := other
  by_cases hSlash : text.head? = some '/'
  · rw [join_of_slash hSlash, isAbsolute_mk_iff.2 hSlash]
    rfl
  have hRelative : (Path.mk text).isAbsolute = false := by
    rw [← Bool.not_eq_true, isAbsolute_mk_iff]
    exact hSlash
  rw [join_eq hSlash, hRelative, Bool.false_or]
  by_cases hText : path.text = []
  · have hPath : path = ⟨[]⟩ := by rw [← hText]
    subst hPath
    exact hRelative
  · exact isAbsolute_lead hText text

theorem prefix_lead (path : Path) : path.text <+: path.lead := by
  by_cases h : path.IsOpen
  · rw [lead_of_open h]
  · rw [lead_of_not_open h]
    exact List.prefix_append _ _

theorem mem_of_mem_lead {c : Char} (h : c ∈ path.lead) (hc : c ≠ '/') : c ∈ path.text := by
  by_cases hOpen : path.IsOpen
  · rwa [lead_of_open hOpen] at h
  · rw [lead_of_not_open hOpen] at h
    exact (List.mem_append.1 h).resolve_right fun hSlash => hc (List.mem_singleton.1 hSlash)

/-- A path that leads on starts with the path in front. -/
theorem prefix_descend (path : Path) (h : ∀ name ∈ location, IsNamed name) :
    path.text <+: (path.descend location).text := by
  by_cases hSome : location = []
  · rw [hSome]
    exact List.prefix_refl _
  · rw [descend_eq hSome h]
    exact path.prefix_lead.trans (List.prefix_append _ _)

-- ---------------------------------------------------------------------------
-- Segments and components
-- ---------------------------------------------------------------------------

/-- What stands in front is segments with slashes behind them: those of the path, except for an
empty one at its end. -/
theorem exists_terminated_lead (path : Path) :
    ∃ front, path.lead = terminated '/' front ∧ (∀ segment ∈ front, '/' ∉ segment) ∧
      (path.segments = front ∨ path.segments = front ++ [[]]) := by
  obtain ⟨front, last, hSegments⟩ :=
    List.eq_nil_or_concat path.segments |>.resolve_left (segments_ne_nil '/' path.text)
  rw [List.concat_eq_append] at hSegments
  have hText : path.text = terminated '/' front ++ last :=
    eq_terminated_append hSegments (List.cons_ne_nil last [])
  have hFree : ∀ segment ∈ front ++ [last], '/' ∉ segment := by
    intro segment hMem
    rw [← hSegments] at hMem
    exact separator_notMem_of_mem_segments hMem
  by_cases hLast : last = []
  · subst hLast
    refine ⟨front, ?_, fun segment hMem => hFree segment (List.mem_append_left _ hMem),
      .inr hSegments⟩
    rw [List.append_nil] at hText
    rw [lead_of_open, hText]
    show path.text = [] ∨ path.text.getLast? = some '/'
    rw [hText]
    exact terminated_eq_nil_or '/' front
  · refine ⟨front ++ [last], ?_, hFree, .inl hSegments⟩
    have hSlash : path.text.getLast? ≠ some '/' := by
      rw [hText, List.getLast?_append_of_ne_nil _ hLast]
      exact fun hEnd => hFree last (by simp) (List.mem_of_getLast? hEnd)
    have hFilled : path.text ≠ [] := by
      rw [hText]
      exact List.append_ne_nil_of_right_ne_nil _ hLast
    rw [lead_of_not_open (not_or.2 ⟨hFilled, hSlash⟩), hText, terminated_append, terminated_cons,
      List.append_assoc]
    rfl

theorem segments_mk_lead {front : List (List Char)} (hLead : path.lead = terminated '/' front)
    (hFree : ∀ segment ∈ front, '/' ∉ segment) (text : List Char) :
    (Path.mk (path.lead ++ text)).segments = front ++ Text.segments '/' text := by
  show Text.segments '/' (path.lead ++ text) = _
  rw [hLead, segments_terminated hFree]

theorem anchored_of_root {segments : List (List Char)} (h : path.segments = [] :: segments)
    (hSome : segments ≠ []) : path.anchored = (some .root, segments) := by
  obtain ⟨next, others, rfl⟩ := List.exists_cons_of_ne_nil hSome
  rw [anchored, h]

theorem anchored_of_here {segments : List (List Char)} (h : path.segments = ['.'] :: segments) :
    path.anchored = (some .here, segments) := by
  rw [anchored, h]
  rfl

theorem anchored_of_stays {segments : List (List Char)} (h : path.segments = segment :: segments)
    (hFirst : ¬(segment = [] ∨ segment = ['.'])) : path.anchored = (none, segment :: segments) := by
  rw [anchored, h]
  split
  · rename_i hSegments
    exact absurd (.inl (List.cons.inj hSegments).1) hFirst
  · rename_i hSegments
    exact absurd (.inr (List.cons.inj hSegments).1) hFirst
  · rfl

theorem components_of_anchored {start : Option Component} {segments : List (List Char)}
    (h : path.anchored = (start, segments)) :
    path.components = start.toList ++ segments.filterMap Component.ofSegment? := by
  rw [components, h]

/-- A path that is not empty starts like the paths that it leads on to. -/
theorem exists_anchored_lead (h : path.text ≠ []) :
    ∃ start front, path.components = start.toList ++ front.filterMap Component.ofSegment? ∧
      path.components ≠ [] ∧ ∀ text,
        (Path.mk (path.lead ++ text)).anchored = (start, front ++ Text.segments '/' text) := by
  obtain ⟨all, hLead, hFree, hAll⟩ := path.exists_terminated_lead
  have hLonger (text : List Char) := segments_mk_lead hLead hFree text
  have hNotEmpty : path.segments ≠ [[]] := by
    intro hEmpty
    refine h ?_
    rw [← joined_segments '/' path.text]
    exact congrArg (joined '/') hEmpty
  -- how the first segment reads decides where the path starts, and it stays the first one
  cases all with
  | nil =>
    rcases hAll with hNone | hEmpty
    · exact absurd hNone (segments_ne_nil '/' path.text)
    · exact absurd hEmpty hNotEmpty
  | cons first front =>
    -- an empty segment at the end means nothing
    obtain ⟨rest, hRest, hMeaning⟩ : ∃ rest, path.segments = first :: rest ∧
        rest.filterMap Component.ofSegment? = front.filterMap Component.ofSegment? := by
      rcases hAll with hSame | hMore
      · exact ⟨front, hSame, rfl⟩
      · refine ⟨front ++ [[]], hMore.trans List.cons_append, ?_⟩
        rw [List.filterMap_append]
        exact List.append_nil _
    -- an empty first segment: the path starts at the root of the tree
    by_cases hRoot : first = []
    · subst hRoot
      have hSome : rest ≠ [] := by
        rintro rfl
        exact hNotEmpty hRest
      have hComponents := components_of_anchored (anchored_of_root hRest hSome)
      rw [hMeaning] at hComponents
      refine ⟨some .root, front, hComponents, ?_, fun text => ?_⟩
      · rw [hComponents]
        exact List.cons_ne_nil _ _
      · exact anchored_of_root (hLonger text)
          (List.append_ne_nil_of_right_ne_nil _ (segments_ne_nil '/' text))
    -- a dot: the path starts here
    by_cases hHere : first = ['.']
    · subst hHere
      have hComponents := components_of_anchored (anchored_of_here hRest)
      rw [hMeaning] at hComponents
      refine ⟨some .here, front, hComponents, ?_, fun text => anchored_of_here (hLonger text)⟩
      rw [hComponents]
      exact List.cons_ne_nil _ _
    -- anything else: the segment is a component by itself
    · have hStays := not_or.2 ⟨hRoot, hHere⟩
      obtain ⟨component, hComponent⟩ :=
        Option.ne_none_iff_exists'.1 (mt Component.ofSegment?_eq_none_iff.1 hStays)
      have hComponents := components_of_anchored (anchored_of_stays hRest hStays)
      rw [List.filterMap_cons_some hComponent, hMeaning] at hComponents
      refine ⟨none, first :: front, ?_, ?_, fun text => anchored_of_stays (hLonger text) hStays⟩
      · rw [hComponents, List.filterMap_cons_some hComponent]
      · rw [hComponents]
        exact List.cons_ne_nil _ _

-- ---------------------------------------------------------------------------
-- What is left behind a path
-- ---------------------------------------------------------------------------

theorem segmentsBehind?_skip (h : Component.ofSegment? segment = none)
    (components : List Component) (rest : List (List Char)) :
    segmentsBehind? components (segment :: rest) = segmentsBehind? components rest := by
  cases components with
  | nil => rw [segmentsBehind?, h]
  | cons component others => rw [segmentsBehind?, h]

/-- The components of a path lead through its segments. -/
theorem segmentsBehind?_append (front more : List (List Char)) :
    segmentsBehind? (front.filterMap Component.ofSegment?) (front ++ more)
      = segmentsBehind? [] more := by
  induction front with
  | nil => rfl
  | cons segment front ih =>
    rw [List.cons_append]
    cases hMeaning : Component.ofSegment? segment with
    | none => rw [List.filterMap_cons_none hMeaning, segmentsBehind?_skip hMeaning, ih]
    | some component =>
      rw [List.filterMap_cons_some hMeaning, segmentsBehind?, hMeaning]
      dsimp only
      rw [if_pos rfl, ih]

theorem exists_segmentsBehind?_nil (segments : List (List Char)) :
    ∃ left, segmentsBehind? [] segments = some left := by
  induction segments with
  | nil => exact ⟨[], rfl⟩
  | cons segment segments ih =>
    cases hMeaning : Component.ofSegment? segment with
    | none => rwa [segmentsBehind?_skip hMeaning]
    | some found => exact ⟨segment :: segments, by rw [segmentsBehind?, hMeaning]⟩

/-- What is left of segments is their end, and it starts with one that means something. -/
theorem segmentsBehind?_spec {components : List Component} {segments left : List (List Char)}
    (h : segmentsBehind? components segments = some left) :
    (∃ front, segments = front ++ left) ∧
      ∀ segment ∈ left.head?, Component.ofSegment? segment ≠ none := by
  induction segments generalizing components with
  | nil =>
    cases components with
    | nil =>
      obtain rfl : [] = left := Option.some.inj h
      exact ⟨⟨[], rfl⟩, fun _ hMem => by simp at hMem⟩
    | cons => simp [segmentsBehind?] at h
  | cons segment segments ih =>
    have hBehind {components : List Component}
        (h : segmentsBehind? components segments = some left) :
        (∃ front, segment :: segments = front ++ left) ∧
          ∀ segment ∈ left.head?, Component.ofSegment? segment ≠ none := by
      obtain ⟨⟨front, rfl⟩, hHead⟩ := ih h
      exact ⟨⟨segment :: front, rfl⟩, hHead⟩
    cases hMeaning : Component.ofSegment? segment with
    | none =>
      rw [segmentsBehind?_skip hMeaning] at h
      exact hBehind h
    | some found =>
      cases components with
      | nil =>
        rw [segmentsBehind?, hMeaning] at h
        obtain rfl := Option.some.inj h
        refine ⟨⟨[], rfl⟩, fun other hMem => ?_⟩
        obtain rfl := Option.some.inj hMem
        rw [hMeaning]
        exact Option.some_ne_none _
      | cons component components =>
        rw [segmentsBehind?, hMeaning] at h
        dsimp only at h
        split at h
        · exact hBehind h
        · contradiction

/-- What is left of a path that leads on are the segments that it leads on by, from the first one
that means something. -/
theorem relativeTo?_lead_eq (hText : root.text ≠ []) (text : List Char) :
    (Path.mk (root.lead ++ text)).relativeTo? root
      = (segmentsBehind? [] (Text.segments '/' text)).map (joined '/') := by
  obtain ⟨start, front, hComponents, hSome, hLonger⟩ := exists_anchored_lead hText
  obtain ⟨first, others, hParts⟩ := List.exists_cons_of_ne_nil hSome
  rw [relativeTo?, hParts, hLonger]
  cases start with
  | none =>
    have hFront : front.filterMap Component.ofSegment? = first :: others :=
      hComponents.symm.trans hParts
    show (segmentsBehind? (first :: others) (front ++ _)).map (joined '/') = _
    rw [← hFront, segmentsBehind?_append]
  | some start =>
    obtain ⟨rfl, hFront⟩ := List.cons.inj (hComponents.symm.trans hParts)
    show (if start = start then segmentsBehind? others (front ++ _) else none).map
      (joined '/') = _
    rw [if_pos rfl, ← hFront]
    exact congrArg (Option.map (joined '/')) (segmentsBehind?_append front _)

/-- What is left of a path that leads on, if it leads on by something. -/
theorem relativeTo?_lead (root : Path)
    (h : ∀ segment ∈ (Text.segments '/' text).head?, Component.ofSegment? segment ≠ none) :
    (Path.mk (root.lead ++ text)).relativeTo? root = some text := by
  by_cases hText : root.text = []
  · have hRoot : root = ⟨[]⟩ := by rw [← hText]
    subst hRoot
    rfl
  · have hBehind : segmentsBehind? [] (Text.segments '/' text) = some (Text.segments '/' text) := by
      obtain ⟨first, rest, hSegments⟩ := List.exists_cons_of_ne_nil (segments_ne_nil '/' text)
      obtain ⟨component, hFirst⟩ :=
        Option.ne_none_iff_exists'.1 (h first (by rw [hSegments]; rfl))
      rw [hSegments, segmentsBehind?, hFirst]
    rw [relativeTo?_lead_eq hText, hBehind, Option.map_some, joined_segments]

/-- What is left of a path that leads on is no longer than what it leads on by. -/
theorem exists_relativeTo?_lead (root : Path) (text : List Char) :
    ∃ left, (Path.mk (root.lead ++ text)).relativeTo? root = some left ∧ left <:+ text := by
  by_cases hText : root.text = []
  · have hRoot : root = ⟨[]⟩ := by rw [← hText]
    subst hRoot
    exact ⟨text, rfl, List.suffix_refl text⟩
  · obtain ⟨left, hLeft⟩ := exists_segmentsBehind?_nil (Text.segments '/' text)
    obtain ⟨⟨front, hSegments⟩, -⟩ := segmentsBehind?_spec hLeft
    refine ⟨joined '/' left, by rw [relativeTo?_lead_eq hText, hLeft, Option.map_some], ?_⟩
    by_cases hSome : left = []
    · rw [hSome]
      exact List.nil_suffix
    · rw [eq_terminated_append hSegments hSome]
      exact List.suffix_append _ _

/-- What is left of a path that leads on by names is the names. -/
theorem relativeTo?_descend_lead (root : Path) (hSome : location ≠ [])
    (h : ∀ name ∈ location, IsNamed name) :
    ((Path.mk root.lead).descend location).relativeTo? root = some (joined '/' location) := by
  rw [descend_eq hSome h, lead_of_open root.isOpen_lead]
  refine relativeTo?_lead root fun segment hHead => ?_
  rw [segments_joined hSome fun name hMem => (h name hMem).2] at hHead
  rw [(h segment (List.mem_of_mem_head? hHead)).ofSegment?]
  exact Option.some_ne_none _

/-- The segments behind the start are at the end of the path. -/
theorem exists_segments_eq (path : Path) : ∃ start, path.segments = start ++ path.anchored.2 := by
  unfold anchored
  split
  · rename_i hSegments
    exact ⟨[[]], hSegments⟩
  · rename_i hSegments
    exact ⟨[['.']], hSegments⟩
  · exact ⟨[], rfl⟩

/-- What is left of a path is the path itself, or segments at its end, of which the first means
something. -/
theorem relativeTo?_cases (h : path.relativeTo? root = some rest) :
    rest = path.text ∨ ∃ front left, path.segments = front ++ left ∧ rest = joined '/' left ∧
      ∀ segment ∈ left.head?, Component.ofSegment? segment ≠ none := by
  unfold relativeTo? at h
  split at h
  · exact .inl (Option.some.inj h).symm
  · rename_i first others hParts
    right
    obtain ⟨left, hLeft, rfl⟩ := Option.map_eq_some_iff.1 h
    obtain ⟨components, hBehind⟩ : ∃ components,
        segmentsBehind? components path.anchored.2 = some left := by
      split at hLeft
      · rename_i start rest hAnchored
        rw [hAnchored]
        split at hLeft
        · exact ⟨others, hLeft⟩
        · contradiction
      · rename_i rest hAnchored
        rw [hAnchored]
        exact ⟨first :: others, hLeft⟩
    obtain ⟨⟨front, hFront⟩, hHead⟩ := segmentsBehind?_spec hBehind
    obtain ⟨start, hStart⟩ := path.exists_segments_eq
    exact ⟨start ++ front, left, by rw [hStart, hFront, List.append_assoc], rfl, hHead⟩

/-- What is left of a path is its end. -/
theorem suffix_of_relativeTo? (h : path.relativeTo? root = some rest) : rest <:+ path.text := by
  rcases relativeTo?_cases h with rfl | ⟨front, left, hSegments, rfl, -⟩
  · exact List.suffix_refl _
  · by_cases hLeft : left = []
    · rw [hLeft]
      exact List.nil_suffix
    · rw [eq_terminated_append hSegments hLeft]
      exact List.suffix_append _ _

/-- What is left of a path is the path itself, or it does not start with a slash. -/
theorem head_of_relativeTo? (h : path.relativeTo? root = some rest) :
    rest = path.text ∨ rest.head? ≠ some '/' := by
  rcases relativeTo?_cases h with hSame | ⟨front, left, hSegments, rfl, hHead⟩
  · exact .inl hSame
  right
  cases left with
  | nil => simp [joined]
  | cons segment more =>
    have hMem : segment ∈ path.segments := by
      rw [hSegments]
      exact List.mem_append_right _ List.mem_cons_self
    cases segment with
    | nil => exact absurd rfl (hHead [] rfl)
    | cons c cs =>
      have hFirst : (joined '/' ((c :: cs) :: more)).head? = some c := by
        cases more <;> rfl
      rw [hFirst]
      intro hSlash
      refine separator_notMem_of_mem_segments hMem ?_
      rw [← Option.some.inj hSlash]
      exact List.mem_cons_self

-- ---------------------------------------------------------------------------
-- Components of paths that lead on
-- ---------------------------------------------------------------------------

theorem filterMap_names (h : ∀ name ∈ location, IsNamed name) :
    location.filterMap Component.ofSegment? = location.map Component.name :=
  List.filterMap_eq_map_iff_forall_eq_some.2 fun name hMem => (h name hMem).ofSegment?

/-- A path that leads on means what the path in front means, and what it leads on by. -/
theorem components_lead (hText : path.text ≠ []) (text : List Char) :
    (Path.mk (path.lead ++ text)).components
      = path.components ++ (Text.segments '/' text).filterMap Component.ofSegment? := by
  obtain ⟨start, front, hComponents, -, hLonger⟩ := exists_anchored_lead hText
  rw [components_of_anchored (hLonger text), List.filterMap_append, hComponents, List.append_assoc]

/-- It does so with any number of slashes between. -/
theorem components_slash (hText : path.text ≠ []) (text : List Char) :
    (Path.mk (path.text ++ '/' :: text)).components
      = path.components ++ (Text.segments '/' text).filterMap Component.ofSegment? := by
  by_cases hOpen : path.IsOpen
  · have hMore := components_lead hText ('/' :: text)
    rw [lead_of_open hOpen] at hMore
    rw [hMore, ← List.nil_append ('/' :: text), segments_append]
    rfl
  · have hMore := components_lead hText text
    rwa [lead_of_not_open hOpen, ← List.append_cons] at hMore

/-- A path that leads on by names means what the path in front means, and the names. -/
theorem components_descend (h : ∀ name ∈ location, IsNamed name) :
    (path.descend location).components = path.components ++ location.map Component.name := by
  by_cases hSome : location = []
  · subst hSome
    exact (List.append_nil _).symm
  by_cases hText : path.text = []
  · have hPath : path = ⟨[]⟩ := by rw [← hText]
    subst hPath
    have hSegments : ((Path.mk []).descend location).segments = location := by
      rw [descend_eq hSome h]
      exact segments_joined hSome fun name hMem => (h name hMem).2
    obtain ⟨first, others, rfl⟩ := List.exists_cons_of_ne_nil hSome
    rw [components_of_anchored (anchored_of_stays hSegments (h first List.mem_cons_self).stays),
      filterMap_names h]
    rfl
  · rw [descend_eq hSome h, components_lead hText,
      segments_joined hSome fun name hMem => (h name hMem).2, filterMap_names h]

/-- Of the paths that lead on from one place by names no two mean the same. -/
theorem descend_injective {other : Location} (h : ∀ name ∈ location, IsNamed name)
    (h' : ∀ name ∈ other, IsNamed name)
    (hSame : (path.descend location).components = (path.descend other).components) :
    location = other := by
  rw [components_descend h, components_descend h'] at hSame
  exact List.map_injective_iff.2 (fun _ _ => Component.name.inj) (List.append_cancel_left hSame)

-- ---------------------------------------------------------------------------
-- The order of paths
-- ---------------------------------------------------------------------------

theorem ble_antisymm (a b : Nat) (h : Nat.ble a b = true) (h' : Nat.ble b a = true) : a = b :=
  Nat.le_antisymm (Nat.le_of_ble_eq_true h) (Nat.le_of_ble_eq_true h')

theorem ble_trans (a b c : Nat) (h : Nat.ble a b = true) (h' : Nat.ble b c = true) :
    Nat.ble a c = true :=
  Nat.ble_eq_true_of_le (Nat.le_trans (Nat.le_of_ble_eq_true h) (Nat.le_of_ble_eq_true h'))

theorem ble_total (a b : Nat) : Nat.ble a b = true ∨ Nat.ble b a = true :=
  (Nat.le_total a b).imp Nat.ble_eq_true_of_le Nat.ble_eq_true_of_le

theorem comesBefore_total (path other : Path) :
    path.comesBefore other = true ∨ other.comesBefore path = true :=
  wordLe_total (wordLe_total ble_total) _ _

theorem comesBefore_trans {first second third : Path} (h : first.comesBefore second = true)
    (h' : second.comesBefore third = true) : first.comesBefore third = true :=
  wordLe_trans (fun _ _ => wordLe_antisymm ble_antisymm)
    (fun _ _ _ => wordLe_trans ble_antisymm ble_trans) h h'

/-- Paths that come before each other have the same components. -/
theorem components_eq_of_comesBefore {other : Path} (h : path.comesBefore other = true)
    (h' : other.comesBefore path = true) : path.components = other.components :=
  List.map_injective_iff.2 Component.word_injective
    (wordLe_antisymm (fun _ _ => wordLe_antisymm ble_antisymm) h h')

/-- Different paths in their order come one before the other. -/
theorem pairwise_mergeSort {paths : List Path}
    (h : paths.Pairwise fun path other => path.components ≠ other.components) :
    (paths.mergeSort comesBefore).Pairwise fun path other =>
      path.comesBefore other = true ∧ path.components ≠ other.components := by
  have hTotal (path other : Path) : (path.comesBefore other || other.comesBefore path) = true := by
    rw [Bool.or_eq_true]
    exact comesBefore_total path other
  have hTrans (first second third : Path) (h : first.comesBefore second = true)
      (h' : second.comesBefore third = true) : first.comesBefore third = true :=
    comesBefore_trans h h'
  refine .and (List.pairwise_mergeSort hTrans hTotal paths) ?_
  exact (List.mergeSort_perm paths comesBefore).symm.pairwise h fun hDifferent => hDifferent.symm

/-- A row of different paths in their order is known by its members. -/
theorem eq_of_pairwise {paths others : List Path}
    (h : paths.Pairwise fun path other =>
      path.comesBefore other = true ∧ path.components ≠ other.components)
    (h' : others.Pairwise fun path other =>
      path.comesBefore other = true ∧ path.components ≠ other.components)
    (hSame : ∀ path, path ∈ paths ↔ path ∈ others) : paths = others := by
  have hNodup {row : List Path} (hRow : row.Pairwise fun path other =>
      path.comesBefore other = true ∧ path.components ≠ other.components) : row.Nodup :=
    hRow.imp fun hBoth hEqual => hBoth.2 (congrArg components hEqual)
  refine ((List.perm_ext_iff_of_nodup (hNodup h) (hNodup h')).2 hSame).eq_of_pairwise ?_ h h'
  intro path other _ _ hBefore hAfter
  exact absurd (components_eq_of_comesBefore hBefore.1 hAfter.1) hBefore.2

end Path

end Relocation

import Relocation.Expansion
import Relocation.Proofs.LeadingOn

/-!
# What walks come to

A walk finds files without following links, and turns back at directories of dependencies and, if
it does not ask for them, at names that start with a dot. So it finds those of all the files below
a node whose way is free of these. In a tree without links, whose names can be written in paths and
name one entry each, a file is known by its location, and a path leads on from a place just as the
names do that it is written with.

## Results

* `Node.walk_eq_filter`: a walk finds the files that are open to it;
* `Node.mem_files_iff`, `Node.nodup_files`: a file is known by its location;
* `FileTree.node?_descend`: where a path leads that leads on by names.
-/

namespace Relocation

open Text

variable {dotsToo : Bool} {name : Name} {location more : Location} {node inner : Node}
  {entries : Entries} {bytes : ByteArray}

-- ---------------------------------------------------------------------------
-- Walks
-- ---------------------------------------------------------------------------

/-- Whether a walk comes to a file at the location: no directory of dependencies is on the way, and
no name starts with a dot, unless the walk asks for these. -/
def isReached (dotsToo : Bool) (location : Location) : Bool :=
  !location.dropLast.contains dependencyDirectory
    && (dotsToo || location.all fun name => name.head? != some '.')

theorem isReached_iff :
    isReached dotsToo location = true ↔
      dependencyDirectory ∉ location.dropLast ∧
        (dotsToo = true ∨ ∀ name ∈ location, name.head? ≠ some '.') := by
  simp only [isReached, Bool.and_eq_true, Bool.not_eq_true', Bool.or_eq_true, List.all_eq_true,
    bne_iff_ne, ne_eq, ← Bool.not_eq_true, List.contains_iff_mem]

/-- No file is where a directory is. -/
theorem Entries.ne_nil_of_mem_files (h : (location, bytes) ∈ entries.files) : location ≠ [] := by
  induction entries using Entries.rec (motive_1 := fun _ => True) with
  | file | link | directory => trivial
  | none => exact absurd h List.not_mem_nil
  | entry name node rest _ ih =>
    rcases List.mem_append.1 h with hHere | hRest
    · obtain ⟨file, -, hFile⟩ := List.mem_map.1 hHere
      rw [← (Prod.mk.inj hFile).1]
      exact List.cons_ne_nil _ _
    · exact ih hRest

/-- A file behind an entry is reached if the entry is visited and the file is reached from there. -/
theorem isReached_cons (hFile : (location, bytes) ∈ node.files) :
    isReached dotsToo (name :: location)
      = (isVisited dotsToo name node && isReached dotsToo location) := by
  cases node with
  | file bytes =>
    -- nothing is behind a file
    obtain ⟨rfl, -⟩ := Prod.mk.inj (List.mem_singleton.1 hFile)
    simp [isReached, isVisited, Node.isDirectory]
  | link target => exact absurd hFile List.not_mem_nil
  | directory entries =>
    obtain ⟨next, others, rfl⟩ :=
      List.exists_cons_of_ne_nil (Entries.ne_nil_of_mem_files hFile)
    simp only [isReached, isVisited, Node.isDirectory, List.dropLast_cons_cons, List.contains_cons,
      List.all_cons, Bool.true_and, Bool.not_or]
    rw [BEq.comm]
    cases name == dependencyDirectory <;> cases dotsToo <;> cases name.head? != some '.' <;> simp

/-- A walk finds the files that are reached, in their order. -/
theorem Node.walk_eq_filter (dotsToo : Bool) (node : Node) :
    node.walk dotsToo = (node.files.map Prod.fst).filter (isReached dotsToo) := by
  induction node using Node.rec
    (motive_2 := fun entries =>
      entries.walk dotsToo = (entries.files.map Prod.fst).filter (isReached dotsToo)) with
  | file bytes =>
    cases dotsToo <;> rfl
  | link target => rfl
  | directory entries ih => exact ih
  | none => rfl
  | entry name node rest ihNode ihRest =>
    have hHere : ((node.files.map fun file => (name :: file.1, file.2)).map Prod.fst).filter
          (isReached dotsToo)
        = if isVisited dotsToo name node then
            ((node.files.map Prod.fst).filter (isReached dotsToo)).map (name :: ·)
          else [] := by
      have hEach : node.files.filter (fun file => isReached dotsToo (name :: file.1))
          = node.files.filter fun file => isVisited dotsToo name node && isReached dotsToo file.1 :=
        List.filter_congr fun file hMem => isReached_cons hMem
      rw [List.map_map, List.filter_map]
      show (node.files.filter fun file => isReached dotsToo (name :: file.1)).map _ = _
      rw [hEach, List.filter_map, List.map_map]
      cases isVisited dotsToo name node with
      | true => rfl
      | false => rw [List.filter_eq_nil_iff.2 (by simp)]; rfl
    rw [Entries.walk, Entries.files, ihNode, ihRest, List.map_append, List.filter_append]
    exact congrArg (· ++ _) hHere.symm

-- ---------------------------------------------------------------------------
-- Proper trees
-- ---------------------------------------------------------------------------

/-- Whether the name can be written in any path: it is not too long, and no character in it means
anything else there. -/
def isWritable (name : Name) : Bool :=
  FileTree.isName name && name.all fun c => !(['/', '\\', '\x00'].contains c)

mutual

/-- Whether there are no links in the node, and all names in it are writable and name one entry
each. -/
def Node.isProper : Node → Bool
  | .file _ => true
  | .link _ => false
  | .directory entries => entries.isProper

/-- Whether there are no links in the entries, and all names in them are writable and name one entry
each. -/
def Entries.isProper : Entries → Bool
  | .none => true
  | .entry name node rest =>
    isWritable name && node.isProper && (rest.find? name).isNone && rest.isProper

end

theorem isWritable_spec (h : isWritable name = true) :
    IsNamed name ∧ '\\' ∉ name ∧ '\x00' ∉ name ∧ FileTree.isName name = true := by
  obtain ⟨hName, hFree⟩ := Bool.and_eq_true_iff.1 h
  have hNone {c : Char} (hc : c ∈ ['/', '\\', '\x00']) : c ∉ name := by
    intro hMem
    have hHere := List.all_eq_true.1 hFree c hMem
    simp [hc] at hHere
  obtain ⟨hStays, hUp, -⟩ := FileTree.isName_spec hName
  refine ⟨⟨?_, hNone (by simp)⟩, hNone (by simp), hNone (by simp), hName⟩
  intro hMem
  simp only [List.mem_cons, List.not_mem_nil, or_false] at hMem
  rcases hMem with hNil | hDot | hDots
  · exact hStays (.inl hNil)
  · exact hStays (.inr hDot)
  · exact hUp hDots

theorem Entries.isProper_entry_iff {rest : Entries} :
    (Entries.entry name node rest).isProper = true ↔
      isWritable name = true ∧ node.isProper = true ∧ rest.find? name = Option.none ∧
        rest.isProper = true := by
  rw [isProper, Bool.and_eq_true, Bool.and_eq_true, Bool.and_eq_true, Option.isNone_iff_eq_none,
    and_assoc, and_assoc]

/-- What is found in proper entries is proper, and so is its name. -/
theorem Entries.isProper_of_find? (h : entries.isProper = true)
    (hFind : entries.find? name = some node) : isWritable name = true ∧ node.isProper = true := by
  induction entries using Entries.rec (motive_1 := fun _ => True) with
  | file | link | directory => trivial
  | none => simp [find?] at hFind
  | entry found other rest _ ih =>
    obtain ⟨hName, hNode, -, hRest⟩ := isProper_entry_iff.1 h
    rw [find?] at hFind
    split at hFind
    · rename_i hSame
      obtain rfl := Option.some.inj hFind
      rw [← hSame]
      exact ⟨hName, hNode⟩
    · exact ih hRest hFind

/-- A file of some entries is a file of the first one, below its name, or of the others. -/
theorem Entries.cons_mem_files_entry_iff {found name : Name} {rest : Entries} :
    (name :: location, bytes) ∈ (Entries.entry found node rest).files ↔
      (found = name ∧ (location, bytes) ∈ node.files) ∨ (name :: location, bytes) ∈ rest.files := by
  rw [Entries.files, List.mem_append, List.mem_map]
  simp only [Prod.exists, Prod.mk.injEq, List.cons.injEq]
  constructor
  · rintro (⟨_, _, hFile, ⟨rfl, rfl⟩, rfl⟩ | hBehind)
    · exact .inl ⟨rfl, hFile⟩
    · exact .inr hBehind
  · rintro (⟨rfl, hFile⟩ | hBehind)
    · exact .inl ⟨_, _, hFile, ⟨rfl, rfl⟩, rfl⟩
    · exact .inr hBehind

namespace Node

theorem at?_append (node : Node) (location more : Location) :
    node.at? (location ++ more) = (node.at? location).bind fun inner => inner.at? more := by
  induction location generalizing node with
  | nil => rfl
  | cons name location ih =>
    cases node with
    | file bytes => rfl
    | link target => rfl
    | directory entries =>
      rw [List.cons_append, at?, at?]
      cases entries.find? name with
      | none => rfl
      | some inner => exact ih inner

/-- What is in a proper node is proper, and so are the names on the way. -/
theorem isProper_of_at? (h : node.isProper = true) (hAt : node.at? location = some inner) :
    (∀ name ∈ location, isWritable name = true) ∧ inner.isProper = true := by
  induction location generalizing node with
  | nil =>
    obtain rfl := Option.some.inj hAt
    exact ⟨fun _ hMem => absurd hMem List.not_mem_nil, h⟩
  | cons name location ih =>
    cases node with
    | file bytes => simp [at?] at hAt
    | link target => simp [at?] at hAt
    | directory entries =>
      obtain ⟨next, hFind, hRest⟩ := Option.bind_eq_some_iff.1 hAt
      obtain ⟨hName, hNext⟩ := Entries.isProper_of_find? h hFind
      obtain ⟨hNames, hInner⟩ := ih hNext hRest
      refine ⟨fun other hMem => ?_, hInner⟩
      rcases List.mem_cons.1 hMem with rfl | hMem
      · exact hName
      · exact hNames other hMem

theorem at?_entry (found : Name) (node : Node) (rest : Entries) (name : Name)
    (location : Location) :
    (directory (.entry found node rest)).at? (name :: location)
      = if found = name then node.at? location else (directory rest).at? (name :: location) := by
  rw [at?, Entries.find?]
  split <;> rfl

/-- A file is known by its location. -/
theorem mem_files_iff (h : node.isProper = true) :
    (location, bytes) ∈ node.files ↔ node.at? location = some (.file bytes) := by
  induction node using Node.rec
    (motive_2 := fun entries => ∀ location, entries.isProper = true →
      ((location, bytes) ∈ entries.files
        ↔ (Node.directory entries).at? location = some (.file bytes)))
    generalizing location with
  | file held =>
    cases location with
    | nil => simp [files, at?, eq_comm]
    | cons name location => simp [files, at?]
  | link target => exact absurd h Bool.false_ne_true
  | directory entries ih => exact ih location h
  | none location h => cases location <;> simp [Entries.files, at?, Entries.find?]
  | entry found node rest ihNode ihRest location h =>
    obtain ⟨-, hNode, hDistinct, hRest⟩ := Entries.isProper_entry_iff.1 h
    cases location with
    | nil =>
      constructor
      · intro hMem
        exact absurd rfl (Entries.ne_nil_of_mem_files hMem)
      · intro hAt
        simp [at?] at hAt
    | cons name location =>
      rw [Entries.cons_mem_files_entry_iff, at?_entry, ihNode hNode, ihRest _ hRest]
      by_cases hSame : found = name
      · subst hSame
        simp [at?, hDistinct]
      · simp [hSame]

/-- No location has two files. -/
theorem nodup_files (h : node.isProper = true) : (node.files.map Prod.fst).Nodup := by
  induction node using Node.rec
    (motive_2 := fun entries => entries.isProper = true → (entries.files.map Prod.fst).Nodup) with
  | file bytes => exact List.nodup_singleton []
  | link target => exact List.nodup_nil
  | directory entries ih => exact ih h
  | none => exact List.nodup_nil
  | entry found node rest ihNode ihRest h =>
    obtain ⟨-, hNode, hDistinct, hRest⟩ := Entries.isProper_entry_iff.1 h
    rw [Entries.files, List.map_append, List.map_map]
    refine List.nodup_append.2 ⟨?_, ihRest hRest, ?_⟩
    · have hHere : node.files.map (Prod.fst ∘ fun file => (found :: file.1, file.2))
          = (node.files.map Prod.fst).map (found :: ·) := by
        rw [List.map_map]
        rfl
      rw [hHere]
      exact (ihNode hNode).map fun _ _ hSame => (List.cons.inj hSame).2
    · rintro location hHere other hBehind rfl
      obtain ⟨file, -, rfl⟩ := List.mem_map.1 hHere
      obtain ⟨⟨_, bytes⟩, hMem, rfl⟩ := List.mem_map.1 hBehind
      have hProper : (directory rest).isProper = true := hRest
      have hAt := (mem_files_iff hProper).1 hMem
      simp [at?, hDistinct] at hAt

theorem nodup_walk (h : node.isProper = true) (dotsToo : Bool) : (node.walk dotsToo).Nodup := by
  rw [walk_eq_filter]
  exact (nodup_files h).filter _

/-- A walk finds the files that it reaches. -/
theorem mem_walk_iff :
    location ∈ node.walk dotsToo ↔
      isReached dotsToo location = true ∧ ∃ bytes, (location, bytes) ∈ node.files := by
  rw [walk_eq_filter, List.mem_filter, List.mem_map, and_comm]
  simp

/-- A walk that finds a file where it starts has started at a file. -/
theorem eq_file_of_nil_mem_walk (h : [] ∈ node.walk dotsToo) : ∃ bytes, node = .file bytes := by
  cases node with
  | file bytes => exact ⟨bytes, rfl⟩
  | link target => exact absurd h List.not_mem_nil
  | directory entries =>
    obtain ⟨-, bytes, hFile⟩ := mem_walk_iff.1 h
    exact absurd rfl (Entries.ne_nil_of_mem_files hFile)

end Node

-- ---------------------------------------------------------------------------
-- Paths in proper trees
-- ---------------------------------------------------------------------------

namespace FileTree

variable {tree : FileTree} {path : Path} {links : Nat} {from_ : Location}

/-- In a proper tree a segment leads to a place or nowhere, and the others are followed from
there. -/
theorem follow_cons (h : tree.root.isProper = true) (links : Nat) (from_ : Location)
    (segment : List Char) (rest : List (List Char)) :
    tree.follow links from_ (segment :: rest)
      = tree.follow links from_ [segment] >>= fun next => tree.follow links next rest := by
  rw [follow, follow]
  cases hAt : tree.at? from_ with
  | none => rfl
  | some node =>
    cases node with
    | file bytes => rfl
    | link target => rfl
    | directory entries =>
      dsimp only
      -- both sides make the same tests of the first segment, one after the other
      by_cases hStays : segment = [] ∨ segment = ['.']
      · rw [if_pos hStays, if_pos hStays, follow_nil]
        rfl
      rw [if_neg hStays, if_neg hStays]
      by_cases hUp : segment = ['.', '.']
      · rw [if_pos hUp, if_pos hUp, follow_nil]
        rfl
      rw [if_neg hUp, if_neg hUp]
      by_cases hLong : nameLimit < byteLength segment
      · rw [if_pos hLong, if_pos hLong]
        rfl
      rw [if_neg hLong, if_neg hLong]
      cases hFind : entries.find? segment with
      | none => rfl
      | some inner =>
        cases inner with
        -- the one step that would put segments in front of the rest
        | link target =>
          obtain ⟨-, hProper⟩ := Node.isProper_of_at? h hAt
          obtain ⟨-, hLink⟩ := Entries.isProper_of_find? hProper hFind
          exact absurd hLink Bool.false_ne_true
        | file bytes =>
          dsimp only
          rw [follow_nil]
          rfl
        | directory inside =>
          dsimp only
          rw [follow_nil]
          rfl

/-- In a proper tree segments are followed one part after the other. -/
theorem follow_append (h : tree.root.isProper = true) (links : Nat) (from_ : Location)
    (front behind : List (List Char)) :
    tree.follow links from_ (front ++ behind)
      = tree.follow links from_ front >>= fun between => tree.follow links between behind := by
  induction front generalizing from_ with
  | nil =>
    rw [follow_nil]
    rfl
  | cons segment front ih =>
    rw [List.cons_append, follow_cons h, follow_cons h links from_ segment front, bind_assoc]
    exact congrArg _ (funext fun next => ih next)

/-- The node that segments lead to from a location on. -/
def nodeBehind? (tree : FileTree) (links : Nat) (from_ : Location) (segments : List (List Char)) :
    Option Node :=
  match tree.follow links from_ segments with
  | .ok location => tree.at? location
  | .error _ => none

/-- In a proper tree names lead from a location to what they name there. -/
theorem nodeBehind?_names (h : tree.root.isProper = true) (hAt : tree.at? from_ = some node)
    (hNames : ∀ name ∈ location, IsNamed name) :
    tree.nodeBehind? links from_ location = node.at? location := by
  induction location generalizing from_ node with
  | nil =>
    rw [nodeBehind?, follow_nil]
    exact hAt
  | cons name location ih =>
    have hName := hNames name List.mem_cons_self
    rw [nodeBehind?, follow, hAt]
    cases node with
    | file bytes => rfl
    | link target => rfl
    | directory entries =>
      dsimp only
      rw [if_neg hName.stays, if_neg hName.not_up, Node.at?]
      cases hFind : entries.find? name with
      | none =>
        by_cases hLong : nameLimit < byteLength name
        · rw [if_pos hLong]
          rfl
        · rw [if_neg hLong]
          rfl
      -- what is found has a name that is not too long, and the rest is followed from there
      | some inner =>
        obtain ⟨-, hProper⟩ := Node.isProper_of_at? h hAt
        obtain ⟨hWritable, hInner⟩ := Entries.isProper_of_find? hProper hFind
        obtain ⟨-, -, -, hIsName⟩ := isWritable_spec hWritable
        obtain ⟨-, -, hShort⟩ := isName_spec hIsName
        have hNext : tree.at? (from_ ++ [name]) = some inner := by
          rw [at?, Node.at?_append, show tree.root.at? from_ = some (.directory entries) from hAt]
          show (entries.find? name).bind _ = _
          rw [hFind]
          rfl
        rw [if_neg hShort, Option.bind_some,
          ← ih hNext fun other hMem => hNames other (List.mem_cons_of_mem _ hMem)]
        cases inner with
        | link target => exact absurd hInner Bool.false_ne_true
        | file bytes => rfl
        | directory inside => rfl

/-- The path can be followed: it is neither empty nor too long, and it can be written. -/
def CanFollow (path : Path) : Prop :=
  '\x00' ∉ path.text ∧ path.text ≠ [] ∧ byteLength path.text ≤ pathLimit

theorem node?_of_canFollow (h : CanFollow path) :
    tree.node? path = tree.nodeBehind? linkLimit (tree.startOf path) path.segments := by
  obtain ⟨hZero, hText, hShort⟩ := h
  rw [node?, resolve_of_short (by simpa using hZero) hText hShort]
  rfl

theorem canFollow_of_node? (h : tree.node? path = some node) : CanFollow path := by
  unfold node? resolve at h
  by_cases hZero : '\x00' ∈ path.text
  · simp [hZero] at h
  by_cases hText : path.text = []
  · simp [hText] at h
  by_cases hLong : pathLimit < byteLength path.text
  · simp [hZero, hText, hLong] at h
  · exact ⟨hZero, hText, Nat.not_lt.1 hLong⟩

theorem nodeBehind?_eq_some_iff {segments : List (List Char)} :
    tree.nodeBehind? links from_ segments = some node ↔
      ∃ next, tree.follow links from_ segments = .ok next ∧ tree.at? next = some node := by
  rw [nodeBehind?]
  cases tree.follow links from_ segments <;> simp

theorem CanFollow.of_prefix {other : Path} (h : CanFollow other) (hText : path.text ≠ [])
    (hPrefix : path.text <+: other.text) : CanFollow path := by
  obtain ⟨hZero, -, hShort⟩ := h
  obtain ⟨rest, hRest⟩ := hPrefix
  rw [← hRest] at hZero hShort
  rw [byteLength_append] at hShort
  exact ⟨fun hMem => hZero (List.mem_append_left _ hMem), hText, by omega⟩

/-- Segments are only followed from directories. -/
theorem exists_directory_of_follow {segment : List Char} {rest : List (List Char)} {last : Location}
    (h : tree.follow links from_ (segment :: rest) = .ok last) :
    ∃ entries, tree.at? from_ = some (.directory entries) := by
  rw [follow] at h
  split at h
  · rename_i entries hAt
    exact ⟨entries, hAt⟩
  · contradiction

/-- An empty segment stays in its directory. -/
theorem follow_empty (hAt : tree.at? from_ = some (.directory entries)) :
    tree.follow links from_ [[]] = .ok from_ := by
  rw [follow, hAt]
  exact (if_pos (.inl rfl)).trans follow_nil

/-- With a slash behind them segments lead to the same directory, or nowhere. -/
theorem nodeBehind?_concat_nil (h : tree.root.isProper = true) {front : List (List Char)} :
    tree.nodeBehind? links from_ (front ++ [[]]) = some node ↔
      tree.nodeBehind? links from_ front = some node ∧ ∃ entries, node = .directory entries := by
  rw [nodeBehind?_eq_some_iff, nodeBehind?_eq_some_iff, follow_append h]
  constructor
  · rintro ⟨last, hFollow, hAt⟩
    obtain ⟨next, hFront, hStay⟩ := bind_eq_ok_iff.1 hFollow
    obtain ⟨entries, hNext⟩ := exists_directory_of_follow hStay
    rw [follow_empty hNext] at hStay
    obtain rfl := Except.ok.inj hStay
    rw [hAt] at hNext
    exact ⟨⟨next, hFront, hAt⟩, entries, Option.some.inj hNext⟩
  · rintro ⟨⟨next, hFront, hAt⟩, entries, rfl⟩
    exact ⟨next, bind_eq_ok_iff.2 ⟨next, hFront, follow_empty hAt⟩, hAt⟩

/-- In a proper tree the segments in front of what a path leads on to lead where the path does. -/
theorem exists_front_of_node? (h : tree.root.isProper = true)
    (hPath : tree.node? path = some node) :
    ∃ front, path.lead = terminated '/' front ∧ (∀ segment ∈ front, '/' ∉ segment) ∧
      tree.nodeBehind? linkLimit (tree.startOf path) front = some node := by
  obtain ⟨front, hLead, hFree, hSegments⟩ := path.exists_terminated_lead
  rw [node?_of_canFollow (canFollow_of_node? hPath)] at hPath
  refine ⟨front, hLead, hFree, ?_⟩
  rcases hSegments with hSame | hMore
  · rwa [hSame] at hPath
  · rw [hMore] at hPath
    exact ((nodeBehind?_concat_nil h).1 hPath).1

/-- In a proper tree a path that leads on leads to where its segments lead from where the path in
front leads to. -/
theorem node?_lead (h : tree.root.isProper = true) (hPath : tree.node? path = some node)
    {text : List Char} (hFollow : CanFollow ⟨path.lead ++ text⟩) :
    ∃ next, tree.at? next = some node ∧
      tree.node? ⟨path.lead ++ text⟩ = tree.nodeBehind? linkLimit next (segments '/' text) := by
  obtain ⟨front, hLead, hFree, hFront⟩ := exists_front_of_node? h hPath
  obtain ⟨next, hNext, hAt⟩ := nodeBehind?_eq_some_iff.1 hFront
  have hStart : tree.startOf ⟨path.lead ++ text⟩ = tree.startOf path := by
    rw [startOf, startOf, Path.isAbsolute_lead (canFollow_of_node? hPath).2.1]
  refine ⟨next, hAt, ?_⟩
  rw [node?_of_canFollow hFollow, Path.segments_mk_lead hLead hFree, hStart, nodeBehind?,
    follow_append h, hNext]
  rfl

/-- In a proper tree a path that leads on by names leads to what they name where the path in front
leads to. -/
theorem node?_descend (h : tree.root.isProper = true) (hPath : tree.node? path = some node)
    (hNames : ∀ name ∈ location, IsNamed name) (hFollow : CanFollow (path.descend location)) :
    tree.node? (path.descend location) = node.at? location := by
  by_cases hSome : location = []
  · subst hSome
    exact hPath
  rw [Path.descend_eq hSome hNames] at hFollow ⊢
  obtain ⟨next, hAt, hNode⟩ := node?_lead h hPath hFollow
  rw [hNode, segments_joined hSome fun name hMem => (hNames name hMem).2]
  exact nodeBehind?_names h hAt hNames

/-- In a proper tree a path leads to the same directory with a slash behind it. -/
theorem node?_lead_eq_directory_iff (h : tree.root.isProper = true) (hText : path.text ≠ [])
    (hFollow : CanFollow ⟨path.lead⟩) :
    tree.node? ⟨path.lead⟩ = some (.directory entries) ↔
      tree.node? path = some (.directory entries) := by
  have hCan : CanFollow path := hFollow.of_prefix hText path.prefix_lead
  obtain ⟨front, hLead, hFree, hSegments⟩ := path.exists_terminated_lead
  have hConcat (from_ : Location) :
      tree.nodeBehind? linkLimit from_ (front ++ [[]]) = some (.directory entries) ↔
        tree.nodeBehind? linkLimit from_ front = some (.directory entries) :=
    (nodeBehind?_concat_nil h).trans (and_iff_left ⟨entries, rfl⟩)
  rw [← List.append_nil path.lead] at hFollow ⊢
  rw [node?_of_canFollow hFollow, node?_of_canFollow hCan, Path.segments_mk_lead hLead hFree,
    startOf, Path.isAbsolute_lead hText]
  show tree.nodeBehind? linkLimit (tree.startOf path) (front ++ [[]]) = _ ↔ _
  rcases hSegments with hSame | hMore
  · rw [hSame, hConcat]
  · rw [hMore]

/-- A path to a file does not end with a slash. -/
theorem getLast_ne_of_file (h : tree.root.isProper = true)
    (hPath : tree.node? path = some (.file bytes)) : path.text.getLast? ≠ some '/' := by
  intro hLast
  obtain ⟨front, hText⟩ := List.getLast?_eq_some_iff.1 hLast
  have hSegments : path.segments = segments '/' front ++ [[]] := by
    rw [Path.segments, hText, segments_append]
    rfl
  rw [node?_of_canFollow (canFollow_of_node? hPath), hSegments, nodeBehind?_concat_nil h] at hPath
  obtain ⟨-, entries, hFile⟩ := hPath
  exact Node.noConfusion hFile

/-- What leads on by names leads on from a directory. -/
theorem exists_directory_of_descend (h : tree.root.isProper = true) (hText : path.text ≠ [])
    (hSome : location ≠ []) (hNames : ∀ name ∈ location, IsNamed name)
    (hNode : tree.node? (path.descend location) = some node) :
    ∃ entries, tree.node? path = some (.directory entries) := by
  have hFollow := canFollow_of_node? hNode
  have hCan := hFollow.of_prefix hText (path.prefix_descend hNames)
  rw [Path.descend_eq hSome hNames] at hNode hFollow
  obtain ⟨front, hLead, hFree, hSegments⟩ := path.exists_terminated_lead
  rw [node?_of_canFollow hFollow, Path.segments_mk_lead hLead hFree,
    segments_joined hSome fun name hMem => (hNames name hMem).2, startOf,
    Path.isAbsolute_lead hText] at hNode
  obtain ⟨last, hLast, -⟩ := nodeBehind?_eq_some_iff.1 hNode
  rw [follow_append h] at hLast
  obtain ⟨next, hFront, hRest⟩ := bind_eq_ok_iff.1 hLast
  obtain ⟨first, others, rfl⟩ := List.exists_cons_of_ne_nil hSome
  obtain ⟨entries, hAt⟩ := exists_directory_of_follow hRest
  have hHere := nodeBehind?_eq_some_iff.2 ⟨next, hFront, hAt⟩
  refine ⟨entries, ?_⟩
  rw [node?_of_canFollow hCan]
  rcases hSegments with hSame | hMore
  · rwa [hSame]
  · rw [hMore]
    exact (nodeBehind?_concat_nil h).2 ⟨hHere, entries, rfl⟩

/-- What a path leads to in a proper tree is proper. -/
theorem isProper_of_node? (h : tree.root.isProper = true) (hPath : tree.node? path = some node) :
    node.isProper = true := by
  rw [node?_of_canFollow (canFollow_of_node? hPath)] at hPath
  obtain ⟨next, -, hAt⟩ := nodeBehind?_eq_some_iff.1 hPath
  exact (Node.isProper_of_at? h hAt).2

theorem canFollow_descend (h : CanFollow path) (hNames : ∀ name ∈ location, isWritable name = true)
    (hShort : byteLength (path.descend location).text ≤ pathLimit) :
    CanFollow (path.descend location) := by
  have hNamed : ∀ name ∈ location, IsNamed name := fun name hMem =>
    (isWritable_spec (hNames name hMem)).1
  refine ⟨?_, ?_, hShort⟩
  · by_cases hSome : location = []
    · rw [hSome]
      exact h.1
    rw [Path.descend_eq hSome hNamed]
    intro hMem
    rcases List.mem_append.1 hMem with hLead | hBehind
    · exact h.1 (Path.mem_of_mem_lead hLead (by decide))
    · rcases mem_of_mem_joined hBehind with hSlash | ⟨name, hName, hIn⟩
      · contradiction
      · exact (isWritable_spec (hNames name hName)).2.2.1 hIn
  · intro hNil
    have hPrefix := path.prefix_descend hNamed
    rw [hNil] at hPrefix
    exact h.2.1 (List.prefix_nil.1 hPrefix)

/-- In a proper tree the place is a directory with the entries, and no path of a file below it is
too long to be followed. -/
structure Holds (tree : FileTree) (place : Path) (entries : Entries) : Prop where
  proper : tree.root.isProper = true
  leads : tree.node? place = some (.directory entries)
  short : ∀ file ∈ entries.files, byteLength (place.descend file.1).text ≤ pathLimit

namespace Holds

variable {place : Path}

theorem isProper (h : tree.Holds place entries) : (Node.directory entries).isProper = true :=
  isProper_of_node? h.proper h.leads

/-- The names on the way to a file are writable. -/
theorem isWritable (h : tree.Holds place entries) (hFile : (location, bytes) ∈ entries.files) :
    ∀ name ∈ location, isWritable name = true :=
  (Node.isProper_of_at? h.isProper ((Node.mem_files_iff h.isProper).1 hFile)).1

/-- Where names lead to from the place, a walk comes to the files behind these names. -/
theorem exists_walk_iff (h : tree.Holds place entries) (hNames : ∀ name ∈ location, IsNamed name) :
    (∃ node, tree.node? (place.descend location) = some node ∧ more ∈ node.walk dotsToo) ↔
      isReached dotsToo more = true ∧ ∃ bytes, (location ++ more, bytes) ∈ entries.files := by
  have hFiles (bytes : ByteArray) : (location ++ more, bytes) ∈ entries.files ↔
      (Node.directory entries).at? (location ++ more) = some (.file bytes) :=
    Node.mem_files_iff h.isProper
  constructor
  · rintro ⟨node, hNode, hWalk⟩
    obtain ⟨hReached, bytes, hFile⟩ := Node.mem_walk_iff.1 hWalk
    have hAt := node?_descend h.proper h.leads hNames (canFollow_of_node? hNode)
    rw [hNode] at hAt
    refine ⟨hReached, bytes, (hFiles bytes).2 ?_⟩
    rw [Node.at?_append, ← hAt]
    exact (Node.mem_files_iff (isProper_of_node? h.proper hNode)).1 hFile
  · rintro ⟨hReached, bytes, hFile⟩
    have hAt := (hFiles bytes).1 hFile
    have hWritable := h.isWritable hFile
    have hNamed : ∀ name ∈ location ++ more, IsNamed name := fun name hMem =>
      (isWritable_spec (hWritable name hMem)).1
    rw [Node.at?_append] at hAt
    obtain ⟨node, hNode, hInner⟩ := Option.bind_eq_some_iff.1 hAt
    have hShort : byteLength (place.descend location).text ≤ pathLimit := by
      have hLong := h.short _ hFile
      rw [Path.descend_append] at hLong
      have hMore : ∀ name ∈ more, IsNamed name := fun name hMem =>
        hNamed name (List.mem_append_right _ hMem)
      obtain ⟨rest, hRest⟩ := (place.descend location).prefix_descend hMore
      rw [← hRest, byteLength_append] at hLong
      omega
    have hCan := canFollow_descend (canFollow_of_node? h.leads)
      (fun name hMem => hWritable name (List.mem_append_left _ hMem)) hShort
    have hLeads := (node?_descend h.proper h.leads hNames hCan).trans hNode
    have hProper := (Node.isProper_of_at? h.isProper hNode).2
    exact ⟨node, hLeads,
      Node.mem_walk_iff.2 ⟨hReached, bytes, (Node.mem_files_iff hProper).2 hInner⟩⟩

end Holds

/-- The entries of the directory that the path leads to. There are none if it leads to none. -/
def below (tree : FileTree) (path : Path) : Entries :=
  match tree.node? path with
  | some (.directory entries) => entries
  | _ => .none

theorem below_of_directory (h : tree.node? path = some (.directory entries)) :
    tree.below path = entries := by
  rw [below, h]

theorem below_of_not_directory (h : ¬∃ entries, tree.node? path = some (.directory entries)) :
    tree.below path = .none := by
  rw [below]
  split
  · rename_i entries hNode
    exact absurd ⟨entries, hNode⟩ h
  · rfl

/-- The files below the path can be reached: the tree is proper, the path is not empty, and no path
of a file below it is too long to be followed. -/
structure Reaches (tree : FileTree) (path : Path) : Prop where
  proper : tree.root.isProper = true
  filled : path.text ≠ []
  short : ∀ file ∈ (tree.below path).files, byteLength (path.descend file.1).text ≤ pathLimit

namespace Reaches

theorem holds (h : tree.Reaches path) (hPath : tree.node? path = some (.directory entries)) :
    tree.Holds path entries := by
  refine ⟨h.proper, hPath, ?_⟩
  rw [← below_of_directory hPath]
  exact h.short

/-- What has a file below it is a directory. -/
theorem holds_of_mem (h : tree.Reaches path) {file : Location × ByteArray}
    (hFile : file ∈ (tree.below path).files) : tree.Holds path (tree.below path) := by
  by_cases hPath : ∃ entries, tree.node? path = some (.directory entries)
  · obtain ⟨entries, hEntries⟩ := hPath
    rw [below_of_directory hEntries]
    exact h.holds hEntries
  · rw [below_of_not_directory hPath] at hFile
    exact absurd hFile List.not_mem_nil

/-- The names on the way to a file are writable. -/
theorem isWritable (h : tree.Reaches path) {file : Location × ByteArray}
    (hFile : file ∈ (tree.below path).files) : ∀ name ∈ file.1, isWritable name = true :=
  (h.holds_of_mem hFile).isWritable hFile

/-- Files that are reached by the same path are in the same place. -/
theorem location_eq (h : tree.Reaches path) {file other : Location × ByteArray}
    (hFile : file ∈ (tree.below path).files) (hOther : other ∈ (tree.below path).files)
    (hSame : (path.descend file.1).components = (path.descend other.1).components) :
    file.1 = other.1 := by
  refine Path.descend_injective ?_ ?_ hSame
  · exact fun name hMem => (isWritable_spec (h.isWritable hFile name hMem)).1
  · exact fun name hMem => (isWritable_spec (h.isWritable hOther name hMem)).1

end Reaches

end FileTree

end Relocation

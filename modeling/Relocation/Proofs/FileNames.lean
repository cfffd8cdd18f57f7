import Relocation.Proofs.Walks

/-!
# The names of files

A file is named by the last component of a path that leads to it. That component is the last
segment: nothing behind the name of a file can be followed, and a segment that stays where it is, or
goes up, leads to a directory. So it is whether links are on the way or not. If the last segment is
no link, it is also the name that the file has in its directory.

## Results

* `FileTree.exists_segments_of_file`: the last segment of a path to a file is its name;
* `FileTree.getLast?_of_follow`: it is the name in the directory, unless there are links on the way;
* `Node.isNamed_of_mem_walk`: the names on the way of a walk.
-/

namespace Relocation

open Text

variable {tree : FileTree} {path : Path} {location from_ : Location} {name segment : List Char}
  {front : List (List Char)} {node inner : Node} {entries : Entries} {links : Nat} {dotsToo : Bool}
  {bytes : ByteArray}

-- ---------------------------------------------------------------------------
-- Names of paths
-- ---------------------------------------------------------------------------

/-- The name of what the path leads to: its last component, if that is a name. -/
def Path.fileName? (path : Path) : Option Name :=
  match path.components.getLast? with
  | some (.name name) => some name
  | _ => none

theorem Path.fileName?_of_segments (h : path.segments = front ++ [name]) (hName : IsNamed name) :
    path.fileName? = some name := by
  have hComponents : path.components.getLast? = some (.name name) := by
    rw [Path.components_eq, h, List.filterMap_append, List.filterMap_cons_some hName.ofSegment?]
    rw [← List.append_assoc]
    exact List.getLast?_concat
  rw [fileName?, hComponents]

-- ---------------------------------------------------------------------------
-- Names in trees
-- ---------------------------------------------------------------------------

mutual

/-- Whether all names in the node are names in paths. -/
def Node.isNamed : Node → Bool
  | .file _ => true
  | .link _ => true
  | .directory entries => entries.isNamed

/-- Whether the names of the entries, and all names in them, are names in paths. -/
def Entries.isNamed : Entries → Bool
  | .none => true
  | .entry name node rest => decide (IsNamed name) && node.isNamed && rest.isNamed

end

theorem Entries.isNamed_entry_iff {rest : Entries} :
    (Entries.entry name node rest).isNamed = true ↔
      IsNamed name ∧ node.isNamed = true ∧ rest.isNamed = true := by
  rw [isNamed, Bool.and_eq_true, Bool.and_eq_true, decide_eq_true_eq, and_assoc]

theorem Entries.isNamed_of_find? (h : entries.isNamed = true)
    (hFind : entries.find? name = some node) : node.isNamed = true := by
  induction entries using Entries.rec (motive_1 := fun _ => True) with
  | file | link | directory => trivial
  | none => simp [find?] at hFind
  | entry found other rest _ ih =>
    obtain ⟨-, hNode, hRest⟩ := isNamed_entry_iff.1 h
    rw [find?] at hFind
    split at hFind
    · rwa [← Option.some.inj hFind]
    · exact ih hRest hFind

theorem Entries.mem_files_of_find? (hFind : entries.find? name = some node)
    (hFile : (location, bytes) ∈ node.files) : (name :: location, bytes) ∈ entries.files := by
  induction entries using Entries.rec (motive_1 := fun _ => True) with
  | file | link | directory => trivial
  | none => simp [find?] at hFind
  | entry found other rest _ ih =>
    rw [find?] at hFind
    split at hFind
    · rename_i hSame
      obtain rfl := Option.some.inj hFind
      subst hSame
      exact List.mem_append_left _ (List.mem_map.2 ⟨_, hFile, rfl⟩)
    · exact List.mem_append_right _ (ih hFind)

namespace Node

/-- A file in what is at a location is a file behind that location. -/
theorem mem_files_of_at? {more : Location} (hAt : node.at? location = some inner)
    (hFile : (more, bytes) ∈ inner.files) : (location ++ more, bytes) ∈ node.files := by
  induction location generalizing node with
  | nil => rwa [← Option.some.inj hAt] at hFile
  | cons name location ih =>
    cases node with
    | file | link => simp [at?] at hAt
    | directory entries =>
      obtain ⟨next, hFind, hRest⟩ := Option.bind_eq_some_iff.1 hAt
      exact Entries.mem_files_of_find? hFind (ih hRest)

theorem isNamed_of_at? (h : node.isNamed = true) (hAt : node.at? location = some inner) :
    inner.isNamed = true := by
  induction location generalizing node with
  | nil => rwa [← Option.some.inj hAt]
  | cons name location ih =>
    cases node with
    | file | link => simp [at?] at hAt
    | directory entries =>
      obtain ⟨next, hFind, hRest⟩ := Option.bind_eq_some_iff.1 hAt
      exact ih (Entries.isNamed_of_find? h hFind) hRest

/-- The names that lead to the files in a node are names in paths. -/
theorem isNamed_of_mem_files (h : node.isNamed = true) (hFile : (location, bytes) ∈ node.files) :
    ∀ name ∈ location, IsNamed name := by
  induction node using Node.rec
    (motive_2 := fun entries => ∀ location, entries.isNamed = true →
      (location, bytes) ∈ entries.files → ∀ name ∈ location, IsNamed name)
    generalizing location with
  | file held =>
    obtain ⟨rfl, -⟩ := Prod.mk.inj (List.mem_singleton.1 hFile)
    exact fun _ hMem => absurd hMem List.not_mem_nil
  | link target => exact absurd hFile List.not_mem_nil
  | directory entries ih => exact ih location h hFile
  | none location h hFile => exact absurd hFile List.not_mem_nil
  | entry found node rest ihNode ihRest location h hFile name hMem =>
    obtain ⟨hName, hNode, hRest⟩ := Entries.isNamed_entry_iff.1 h
    rcases List.mem_append.1 hFile with hHere | hBehind
    · obtain ⟨⟨inner, held⟩, hInner, hSame⟩ := List.mem_map.1 hHere
      obtain ⟨rfl, rfl⟩ := Prod.mk.inj hSame
      exact List.forall_mem_cons.2 ⟨hName, ihNode hNode hInner⟩ name hMem
    · exact ihRest location hRest hBehind name hMem

theorem isNamed_of_mem_walk (h : node.isNamed = true) (hMem : location ∈ node.walk dotsToo) :
    ∀ name ∈ location, IsNamed name := by
  obtain ⟨-, bytes, hFile⟩ := mem_walk_iff.1 hMem
  exact isNamed_of_mem_files h hFile

end Node

theorem FileTree.isNamed_of_node? (h : tree.root.isNamed = true)
    (hNode : tree.node? path = some node) : node.isNamed = true := by
  rw [node?_of_canFollow (canFollow_of_node? hNode)] at hNode
  obtain ⟨location, -, hAt⟩ := nodeBehind?_eq_some_iff.1 hNode
  exact Node.isNamed_of_at? h hAt

/-- The names on the way to a file that a walk finds are names on the way to a file of the tree. -/
theorem FileTree.exists_of_mem_walk (hNode : tree.node? path = some node)
    (hWalk : location ∈ node.walk dotsToo) :
    ∃ file ∈ tree.root.files, ∀ name ∈ location, name ∈ file.1 := by
  rw [node?_of_canFollow (canFollow_of_node? hNode)] at hNode
  obtain ⟨place, -, hAt⟩ := nodeBehind?_eq_some_iff.1 hNode
  obtain ⟨-, bytes, hFile⟩ := Node.mem_walk_iff.1 hWalk
  exact ⟨_, Node.mem_files_of_at? hAt hFile, fun name hMem => List.mem_append_right _ hMem⟩

-- ---------------------------------------------------------------------------
-- Ways to files
-- ---------------------------------------------------------------------------

namespace FileTree

/-- The last segment is followed from wherever those in front of it lead, with the links that are
left by then. -/
theorem exists_follow_last (h : tree.follow links from_ (front ++ [segment]) = .ok location) :
    ∃ left between, left ≤ links ∧ tree.follow left between [segment] = .ok location := by
  generalize hAll : front ++ [segment] = all at h
  -- in each case the step is by the last segment, or by one in front of it and the rest remains
  fun_induction tree.follow links from_ all generalizing front with
  | case1 links from_ => simp at hAll
  | case2 links from_ first rest entries hAt hStays ih =>
    cases front with
    | nil =>
      obtain ⟨rfl, rfl⟩ := List.cons.inj hAll
      refine ⟨links, from_, Nat.le_refl _, ?_⟩
      rw [follow, hAt]
      simp only [hStays, if_true, h]
    | cons other front => exact ih (List.cons.inj hAll).2 h
  | case3 links from_ rest entries hAt hMoves ih =>
    cases front with
    | nil =>
      obtain ⟨rfl, rfl⟩ := List.cons.inj hAll
      refine ⟨links, from_, Nat.le_refl _, ?_⟩
      rw [follow, hAt]
      simp only [hMoves, if_true, if_false, h]
    | cons other front => exact ih (List.cons.inj hAll).2 h
  | case4 | case5 | case6 | case9 => contradiction
  -- a link: its segments come in front of the rest, and one link less is left
  | case7 from_ first rest entries hAt hMoves hUp hShort target hFind links ih =>
    cases front with
    | nil =>
      obtain ⟨rfl, rfl⟩ := List.cons.inj hAll
      refine ⟨links + 1, from_, Nat.le_refl _, ?_⟩
      rw [follow, hAt]
      simp only [hMoves, hUp, hShort, hFind, if_false]
      exact h
    | cons other front =>
      have hRest : (target.segments ++ front) ++ [segment] = target.segments ++ rest := by
        rw [List.append_assoc]
        exact congrArg _ (List.cons.inj hAll).2
      obtain ⟨left, between, hLeft, hLast⟩ := ih hRest h
      exact ⟨left, between, by omega, hLast⟩
  | case8 links from_ first rest entries hAt hMoves hUp hShort node hNoLink hFind ih =>
    cases front with
    | nil =>
      obtain ⟨rfl, rfl⟩ := List.cons.inj hAll
      refine ⟨links, from_, Nat.le_refl _, ?_⟩
      rw [follow, hAt]
      simp only [hMoves, hUp, hShort, hFind, if_false]
      cases node with
      | link target => exact absurd rfl (hNoLink target)
      | file | directory => exact h
    | cons other front => exact ih (List.cons.inj hAll).2 h

/-- Above a directory there is a directory. -/
theorem exists_at?_dropLast (h : tree.at? location = some (.directory entries)) :
    ∃ above, tree.at? location.dropLast = some (.directory above) := by
  rcases List.eq_nil_or_concat location with rfl | ⟨init, last, rfl⟩
  · exact ⟨entries, h⟩
  rw [List.concat_eq_append] at h ⊢
  rw [List.dropLast_concat]
  rw [at?, Node.at?_append] at h
  obtain ⟨node, hNode, hLast⟩ := Option.bind_eq_some_iff.1 h
  cases node with
  | directory above => exact ⟨above, hNode⟩
  | file | link => simp [Node.at?] at hLast

/-- A last segment that stays or goes up leads to a directory. -/
theorem exists_directory_of_follow_singleton
    (h : tree.follow links from_ [segment] = .ok location)
    (hSegment : segment ∈ [[], ['.'], ['.', '.']]) :
    ∃ entries, tree.at? location = some (.directory entries) := by
  obtain ⟨entries, hAt⟩ := exists_directory_of_follow h
  simp only [List.mem_cons, List.not_mem_nil, or_false] at hSegment
  rcases hSegment with rfl | rfl | rfl
  · rw [follow_empty hAt] at h
    rw [← Except.ok.inj h]
    exact ⟨entries, hAt⟩
  · rw [follow_dot hAt, follow_nil] at h
    rw [← Except.ok.inj h]
    exact ⟨entries, hAt⟩
  · rw [follow_up hAt, follow_nil] at h
    rw [← Except.ok.inj h]
    exact exists_at?_dropLast hAt

/-- The last segment of a path to a file is its name. -/
theorem exists_segments_of_file (h : tree.node? path = some (.file bytes)) :
    ∃ front name, path.segments = front ++ [name] ∧ IsNamed name := by
  obtain ⟨front, last, hSegments⟩ :=
    List.eq_nil_or_concat path.segments |>.resolve_left (segments_ne_nil '/' path.text)
  rw [List.concat_eq_append] at hSegments
  have hSlash : '/' ∉ last := by
    refine separator_notMem_of_mem_segments (?_ : last ∈ segments '/' path.text)
    rw [show segments '/' path.text = front ++ [last] from hSegments]
    exact List.mem_append_right _ List.mem_cons_self
  refine ⟨front, last, hSegments, fun hMem => ?_, hSlash⟩
  rw [node?_of_canFollow (canFollow_of_node? h), hSegments] at h
  obtain ⟨location, hFollow, hFile⟩ := nodeBehind?_eq_some_iff.1 h
  obtain ⟨left, between, -, hLast⟩ := exists_follow_last hFollow
  obtain ⟨entries, hDirectory⟩ := exists_directory_of_follow_singleton hLast hMem
  rw [hFile] at hDirectory
  exact Node.noConfusion (Option.some.inj hDirectory)

/-- A walk that starts behind a slash does not find a file where it starts. -/
theorem ne_nil_of_mem_walk (hNode : tree.node? ⟨path.lead⟩ = some node)
    (hWalk : location ∈ node.walk dotsToo) : location ≠ [] := by
  rintro rfl
  obtain ⟨bytes, rfl⟩ := Node.eq_file_of_nil_mem_walk hWalk
  obtain ⟨front, name, hSegments, hName⟩ := exists_segments_of_file hNode
  obtain ⟨all, hLead, hFree, -⟩ := path.exists_terminated_lead
  have hAll : (Path.mk path.lead).segments = all ++ [[]] := by
    rw [← List.append_nil path.lead, Path.segments_mk_lead hLead hFree]
    rfl
  rw [hAll] at hSegments
  obtain ⟨-, hLast⟩ := List.append_inj' hSegments rfl
  exact hName.ne_nil (List.cons.inj hLast).1.symm

/-- The last segment of a path is the name in the directory, if there are no links on the way. -/
theorem getLast?_of_follow (h : tree.follow 0 from_ (front ++ [name]) = .ok location)
    (hName : IsNamed name) : location.getLast? = some name := by
  obtain ⟨left, between, hLeft, hLast⟩ := exists_follow_last h
  obtain rfl := Nat.le_zero.1 hLeft
  obtain ⟨entries, hAt⟩ := exists_directory_of_follow hLast
  rw [follow, hAt] at hLast
  simp only [hName.stays, hName.not_up, if_false] at hLast
  split at hLast
  · contradiction
  · split at hLast
    · contradiction
    · contradiction
    · rw [follow_nil] at hLast
      rw [← Except.ok.inj hLast]
      exact List.getLast?_concat

end FileTree

end Relocation

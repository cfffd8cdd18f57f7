import Relocation.Run

/-!
# Outlines of file trees

The outline of a tree is the tree without what its files hold: all names, kinds and targets of
links are there. Paths are followed, trees are walked and patterns are expanded by the outline
alone. To write a file changes what this one file holds and leaves the outline as it is. So while a
run goes on, a pattern stands for the same files whenever it is expanded.

## Results

* `FileTree.resolve_of_outline`, `FileTree.expand_of_outline`: where a path leads, and what a
  pattern stands for, can be told from the outline;
* `FileTree.outline_write`: writing keeps the outline;
* `FileTree.bytes?_write_self`, `FileTree.bytes?_write_of_ne`: what files hold after writing;
* `FileTree.read_of_outline`: a file reads alike while it is not written;
* `FileTree.process_outline`, `FileTree.process_bytes?`: what processing a file keeps.
-/

namespace Relocation

open Text

-- ---------------------------------------------------------------------------
-- Outlines of nodes
-- ---------------------------------------------------------------------------

mutual

/-- The node without what its files hold. -/
def Node.outline : Node → Node
  | .file _ => .file .empty
  | .link target => .link target
  | .directory entries => .directory entries.outline

/-- The entries without what their files hold. -/
def Entries.outline : Entries → Entries
  | .none => .none
  | .entry name node rest => .entry name node.outline rest.outline

end

theorem Entries.find?_outline (entries : Entries) (name : Name) :
    entries.outline.find? name = (entries.find? name).map Node.outline := by
  induction entries using Entries.rec (motive_1 := fun _ => True) with
  | file | link | directory => trivial
  | none => rfl
  | entry found node rest _ ih =>
    rw [outline, find?, find?]
    split
    · rfl
    · exact ih

namespace Node

theorem isDirectory_outline (node : Node) : node.outline.isDirectory = node.isDirectory := by
  cases node <;> rfl

theorem at?_outline (location : Location) (node : Node) :
    node.outline.at? location = (node.at? location).map outline := by
  induction location generalizing node with
  | nil => rfl
  | cons name rest ih =>
    cases node with
    | file | link => rfl
    | directory entries =>
      rw [outline, at?, at?, Entries.find?_outline]
      cases entries.find? name with
      | none => rfl
      | some inner => exact ih inner

end Node

/-- A change of one entry that keeps outlines keeps the outline of the entries. -/
theorem Entries.outline_modify {change : Node → Node}
    (hChange : ∀ node, (change node).outline = node.outline) (name : Name) (entries : Entries) :
    (entries.modify name change).outline = entries.outline := by
  induction entries using Entries.rec (motive_1 := fun _ => True) with
  | file | link | directory => trivial
  | none => rfl
  | entry found node rest _ ih =>
    rw [modify]
    split
    · rw [outline, outline, hChange]
    · rw [outline, outline, ih]

/-- A change of one node that keeps outlines keeps the outline of what is around the node. -/
theorem Node.outline_modifyAt {change : Node → Node}
    (hChange : ∀ node, (change node).outline = node.outline) (location : Location) (node : Node) :
    (node.modifyAt change location).outline = node.outline := by
  induction location generalizing node with
  | nil => exact hChange node
  | cons name rest ih =>
    cases node with
    | file | link => rfl
    | directory entries => rw [modifyAt, outline, outline, Entries.outline_modify ih]

-- ---------------------------------------------------------------------------
-- Walks
-- ---------------------------------------------------------------------------

theorem isVisited_outline (dotsToo : Bool) (name : Name) (node : Node) :
    isVisited dotsToo name node.outline = isVisited dotsToo name node := by
  rw [isVisited, isVisited, Node.isDirectory_outline]

/-- A walk goes by the outline. -/
theorem Node.walk_outline (dotsToo : Bool) (node : Node) :
    node.outline.walk dotsToo = node.walk dotsToo := by
  induction node using Node.rec
    (motive_2 := fun entries => entries.outline.walk dotsToo = entries.walk dotsToo) with
  | file | link => rfl
  | directory entries ih => exact ih
  | none => rfl
  | entry name node rest ihNode ihRest =>
    rw [Entries.outline, Entries.walk, Entries.walk, isVisited_outline, ihNode, ihRest]

/-- So does the list of the directories that a walk comes to. -/
theorem Node.listed_outline (dotsToo : Bool) (node : Node) :
    node.outline.listed dotsToo = node.listed dotsToo := by
  induction node using Node.rec
    (motive_2 := fun entries => entries.outline.listed dotsToo = entries.listed dotsToo) with
  | file | link => rfl
  | directory entries ih => rw [outline, listed, listed, ih]
  | none => rfl
  | entry name node rest ihNode ihRest =>
    rw [Entries.outline, Entries.listed, Entries.listed, isVisited_outline, ihNode, ihRest]

-- ---------------------------------------------------------------------------
-- Outlines of trees
-- ---------------------------------------------------------------------------

namespace FileTree

/-- The tree without what its files hold. -/
def outline (tree : FileTree) : FileTree := { tree with root := tree.root.outline }

theorem at?_outline (tree : FileTree) (location : Location) :
    tree.outline.at? location = (tree.at? location).map Node.outline :=
  Node.at?_outline location tree.root

/-- A location is a directory of the tree if it is one of the outline. -/
theorem at?_outline_directory {tree : FileTree} {location : Location} {entries : Entries}
    (h : tree.at? location = some (.directory entries)) :
    tree.outline.at? location = some (.directory entries.outline) := by
  rw [at?_outline, h]
  rfl

/-- Segments are followed by the outline. -/
theorem follow_outline (tree : FileTree) (links : Nat) (from_ : Location)
    (segments : List (List Char)) :
    tree.outline.follow links from_ segments = tree.follow links from_ segments := by
  fun_induction tree.follow links from_ segments with
  | case1 => rw [follow]
  -- at a directory the outline has the same names and links, so the same step is made
  | case2 links from_ segment rest entries hAt hStays ih =>
    rw [follow, at?_outline_directory hAt]
    simp only [hStays, if_true, ih]
  | case3 links from_ rest entries hAt hMoves ih =>
    rw [follow, at?_outline_directory hAt]
    simp only [hMoves, if_true, if_false, ih]
  | case4 links from_ segment rest entries hAt hMoves hDown hLong =>
    rw [follow, at?_outline_directory hAt]
    simp only [hMoves, hDown, hLong, if_true, if_false]
  | case5 links from_ segment rest entries hAt hMoves hDown hShort hFind =>
    rw [follow, at?_outline_directory hAt]
    simp only [hMoves, hDown, hShort, if_false, Entries.find?_outline, hFind, Option.map_none]
  | case6 from_ segment rest entries hAt hMoves hDown hShort target hFind =>
    rw [follow, at?_outline_directory hAt]
    simp only [hMoves, hDown, hShort, if_false, Entries.find?_outline, hFind, Option.map_some,
      Node.outline]
  | case7 from_ segment rest entries hAt hMoves hDown hShort target hFind links ih =>
    rw [follow, at?_outline_directory hAt]
    simp only [hMoves, hDown, hShort, if_false, Entries.find?_outline, hFind, Option.map_some,
      Node.outline]
    exact ih
  | case8 links from_ segment rest entries hAt hMoves hDown hShort node hNoLink hFind ih =>
    rw [follow, at?_outline_directory hAt]
    simp only [hMoves, hDown, hShort, if_false, Entries.find?_outline, hFind, Option.map_some]
    cases node with
    | link target => exact absurd rfl (hNoLink target)
    | file | directory => exact ih
  -- the outline of what is no directory is none either
  | case9 links from_ segment rest hNone =>
    rw [follow, at?_outline]
    cases hAt : tree.at? from_ with
    | none => rfl
    | some node =>
      cases node with
      | directory entries => exact absurd hAt (hNone entries)
      | file | link => rfl

/-- Where a path leads can be told from the outline. -/
theorem resolve_outline (tree : FileTree) (path : Path) :
    tree.outline.resolve path = tree.resolve path := by
  simp only [resolve, follow_outline]
  rfl

theorem node?_outline (tree : FileTree) (path : Path) :
    tree.outline.node? path = (tree.node? path).map Node.outline := by
  rw [node?, node?, resolve_outline]
  cases tree.resolve path with
  | error fault => rfl
  | ok location => exact at?_outline tree location

theorem isFile_outline (tree : FileTree) (path : Path) :
    tree.outline.isFile path = tree.isFile path := by
  rw [isFile, isFile, node?_outline]
  cases tree.node? path with
  | none => rfl
  | some node => cases node <;> rfl

/-- What a pattern stands for can be told from the outline. -/
theorem expand_outline (tree : FileTree) (root : Path) (pattern : List Char)
    (unlisted : Unlisted) :
    tree.outline.expand root pattern unlisted = tree.expand root pattern unlisted := by
  have hGlob (pattern : List Char) (glob : Glob) :
      tree.outline.expandGlob root pattern glob unlisted
        = tree.expandGlob root pattern glob unlisted := by
    rw [expandGlob, expandGlob, node?_outline]
    cases tree.node? (startOfExpansion root pattern) with
    | none => rfl
    | some node =>
      simp only [Option.map_some, Node.listed_outline, Node.walk_outline]
  simp only [expand, hGlob, isFile_outline]

/-- Trees with the same outline lead to the same places. -/
theorem resolve_of_outline {tree other : FileTree} (h : other.outline = tree.outline)
    (path : Path) : other.resolve path = tree.resolve path := by
  rw [← resolve_outline, h, resolve_outline]

/-- In trees with the same outline a pattern stands for the same files. -/
theorem expand_of_outline {tree other : FileTree} (h : other.outline = tree.outline) (root : Path)
    (pattern : List Char) (unlisted : Unlisted) :
    other.expand root pattern unlisted = tree.expand root pattern unlisted := by
  rw [← expand_outline, h, expand_outline]

/-- Trees with the same outline have the same files. -/
theorem isFile_of_outline {tree other : FileTree} (h : other.outline = tree.outline)
    (path : Path) : other.isFile path = tree.isFile path := by
  rw [← isFile_outline, h, isFile_outline]

end FileTree

-- ---------------------------------------------------------------------------
-- What files hold
-- ---------------------------------------------------------------------------

/-- What a file holds. -/
def Node.bytes? : Node → Option ByteArray
  | .file bytes => some bytes
  | _ => none

/-- What the file at a location holds. -/
def FileTree.bytes? (tree : FileTree) (location : Location) : Option ByteArray :=
  (tree.at? location).bind Node.bytes?

/-- The change gives files new bytes and leaves other nodes as they are. -/
structure Overwrites (change : Node → Node) (bytes : ByteArray) : Prop where
  file : ∀ old, change (.file old) = .file bytes
  other : ∀ node, node.bytes? = none → change node = node

/-- To overwrite the node at a location changes nothing else. -/
theorem Node.bytes?_modifyAt {change : Node → Node} {bytes : ByteArray}
    (hChange : Overwrites change bytes) (location other : Location) (node : Node) :
    ((node.modifyAt change location).at? other).bind bytes?
      = if other = location then ((node.at? location).bind bytes?).map fun _ => bytes
        else (node.at? other).bind bytes? := by
  induction location generalizing node other with
  | nil =>
    rw [modifyAt]
    cases node with
    | file old =>
      rw [hChange.file]
      cases other <;> rfl
    | link | directory =>
      rw [hChange.other _ rfl]
      split
      · rename_i hHere
        rw [hHere]
        rfl
      · rfl
  | cons name rest ih =>
    cases node with
    -- nothing is below a file or a link, so nothing is changed
    | file | link =>
      show (at? _ other).bind bytes? = _
      split
      · rename_i hHere
        rw [hHere]
        rfl
      · rfl
    | directory entries =>
      cases other with
      | nil => rfl
      | cons name' rest' =>
        rw [modifyAt, at?, at?, at?]
        -- the change is below one of the entries, and the others stay
        by_cases hName : name' = name
        · subst hName
          rw [Entries.find?_modify_self]
          cases entries.find? name' with
          | none => simp
          | some inner => simpa using ih rest' inner
        · rw [Entries.find?_modify_of_ne _ _ hName, if_neg (by simp [hName])]

namespace FileTree

variable {tree : FileTree} {path : Path} {text : String} {location : Location}

theorem overwrites_write (text : String) :
    Overwrites (fun | .file _ => .file text.toUTF8 | node => node) text.toUTF8 where
  file _ := rfl
  other node hNone := by
    cases node with
    | file => contradiction
    | link | directory => rfl

/-- Writing keeps the outline. -/
theorem outline_write (tree : FileTree) (path : Path) (text : String) :
    (tree.write path text).outline = tree.outline := by
  unfold write
  cases tree.resolve path with
  | error fault => rfl
  | ok location =>
    refine congrArg (fun root => { tree with root }) (Node.outline_modifyAt ?_ location tree.root)
    intro node
    cases node <;> rfl

/-- The file that is written holds the text. -/
theorem bytes?_write_self (hResolve : tree.resolve path = .ok location) (text : String) :
    (tree.write path text).bytes? location
      = (tree.bytes? location).map fun _ => text.toUTF8 := by
  unfold write
  rw [hResolve]
  exact (Node.bytes?_modifyAt (overwrites_write text) location location tree.root).trans
    (if_pos rfl)

/-- No other file changes. -/
theorem bytes?_write_of_ne (hResolve : tree.resolve path ≠ .ok location) (text : String) :
    (tree.write path text).bytes? location = tree.bytes? location := by
  unfold write
  cases hPath : tree.resolve path with
  | error fault => rfl
  | ok other =>
    have hNe : location ≠ other := fun hSame => hResolve (by rw [hPath, hSame])
    exact (Node.bytes?_modifyAt (overwrites_write text) other location tree.root).trans
      (if_neg hNe)

-- ---------------------------------------------------------------------------
-- Processing
-- ---------------------------------------------------------------------------

/-- A file that is read holds its text in UTF-8. -/
theorem bytes?_of_read (h : tree.read path = .ok text) :
    ∃ location, tree.resolve path = .ok location ∧ tree.bytes? location = some text.toUTF8 := by
  unfold read at h
  cases hResolve : tree.resolve path with
  | error fault =>
    rw [hResolve] at h
    contradiction
  | ok location =>
    refine ⟨location, rfl, ?_⟩
    simp only [hResolve, bind, Except.bind] at h
    cases hAt : tree.at? location with
    | none => simp [hAt] at h
    | some node =>
      rw [hAt] at h
      cases node with
      | link | directory => contradiction
      | file bytes =>
        rw [bytes?, hAt]
        dsimp only at h
        split at h
        · rename_i text' hText
          obtain rfl := Except.ok.inj h
          unfold String.fromUTF8? at hText
          split at hText
          · rw [← Option.some.inj hText]
            rfl
          · contradiction
        · contradiction

/-- What is read is a file. -/
theorem isFile_of_read (h : tree.read path = .ok text) : tree.isFile path = true := by
  obtain ⟨location, hResolve, hBytes⟩ := bytes?_of_read h
  have hNode : tree.node? path = tree.at? location := by rw [node?, hResolve]
  rw [isFile, hNode]
  rw [bytes?] at hBytes
  cases hAt : tree.at? location with
  | none =>
    rw [hAt] at hBytes
    contradiction
  | some node =>
    rw [hAt] at hBytes
    cases node with
    | file => rfl
    | link | directory => contradiction

/-- A path reads alike in trees with the same outline if the file that it leads to holds the
same. -/
theorem read_of_outline {other : FileTree} (hOutline : other.outline = tree.outline)
    (hBytes : ∀ location, tree.resolve path = .ok location →
      other.bytes? location = tree.bytes? location) : other.read path = tree.read path := by
  unfold read
  rw [resolve_of_outline hOutline]
  cases hResolve : tree.resolve path with
  | error fault => rfl
  | ok location =>
    have hKind : (other.at? location).map Node.outline = (tree.at? location).map Node.outline := by
      rw [← at?_outline, ← at?_outline, hOutline]
    have hSame := hBytes location hResolve
    unfold bytes? at hSame
    simp only [bind, Except.bind]
    cases hOther : other.at? location with
    | none =>
      rw [hOther, Option.map_none, eq_comm, Option.map_eq_none_iff] at hKind
      rw [hKind]
    | some node' =>
      rw [hOther] at hKind hSame
      obtain ⟨node, hNode, hKind⟩ := Option.map_eq_some_iff.1 hKind.symm
      rw [hNode] at hSame ⊢
      cases node' with
      | file bytes' =>
        cases node with
        | file bytes =>
          obtain rfl : bytes' = bytes := Option.some.inj hSame
          rfl
        | link | directory => contradiction
      | link =>
        cases node with
        | link => rfl
        | file | directory => contradiction
      | directory =>
        cases node with
        | directory => rfl
        | file | link => contradiction

variable {dryRun : Bool} {report : Report} {next : FileTree}

/-- What processing a file comes to if the file can be read: the file is written, or nothing is
done. -/
theorem process_cases (h : tree.process dryRun path = .ok (report, next)) :
    ∃ text, tree.read path = .ok text ∧ report.path = path.toString ∧
      next = if report.written then tree.write path (relocate text report.path) else tree := by
  unfold process at h
  cases hRead : tree.read path with
  | error fault =>
    rw [hRead] at h
    contradiction
  | ok text =>
    rw [hRead] at h
    obtain ⟨rfl, rfl⟩ := Prod.mk.inj (Except.ok.inj h)
    refine ⟨text, rfl, rfl, ?_⟩
    rw [relocate]

/-- Processing fails only where a file cannot be read. -/
theorem process_error {failure : Failure} (h : tree.process dryRun path = .error failure) :
    ∃ fault, tree.read path = .error fault ∧ failure = .read path fault := by
  unfold process at h
  cases hRead : tree.read path with
  | error fault =>
    rw [hRead] at h
    exact ⟨fault, rfl, (Except.error.inj h).symm⟩
  | ok text =>
    rw [hRead] at h
    contradiction

/-- Processing keeps the outline. -/
theorem process_outline (h : tree.process dryRun path = .ok (report, next)) :
    next.outline = tree.outline := by
  obtain ⟨text, -, -, rfl⟩ := process_cases h
  split
  · exact outline_write ..
  · rfl

/-- Processing changes no file but the one that is written. -/
theorem process_bytes? (h : tree.process dryRun path = .ok (report, next))
    (hOther : report.written = true → tree.resolve path ≠ .ok location) :
    next.bytes? location = tree.bytes? location := by
  obtain ⟨text, -, -, rfl⟩ := process_cases h
  split
  · rename_i hWritten
    exact bytes?_write_of_ne (hOther hWritten) _
  · rfl

/-- A file that is written holds the relocated text. -/
theorem process_written (h : tree.process dryRun path = .ok (report, next))
    (hWritten : report.written = true) :
    ∃ text location, tree.read path = .ok text ∧ tree.resolve path = .ok location ∧
      next.bytes? location = some (relocate text report.path).toUTF8 := by
  obtain ⟨text, hRead, -, rfl⟩ := process_cases h
  obtain ⟨location, hResolve, hBytes⟩ := bytes?_of_read hRead
  refine ⟨text, location, hRead, hResolve, ?_⟩
  rw [if_pos hWritten, bytes?_write_self hResolve, hBytes, Option.map_some]

end FileTree

end Relocation

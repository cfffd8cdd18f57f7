import Relocation.Proofs.FixedPoints
import Relocation.Proofs.Lexicon
import Relocation.Run

/-!
# Reports and the texts of files

A file counts as changed if its new text differs from the old one by more than the blanks around
it. That is no restriction: where an edit is made, the new path shows, and in front of it the text
has a character that is not blank, so the same blanks are left out of both texts. But the report
tells of every import that moves, and the splicer passes over those that have no room for two
quotes or would be cut within a character. So a file can have moves in its report and stay as it is.

## Results

* `trim_ne`: a change between characters that are not blank shows in the trimmed texts;
* `changed_process_iff`: when a file counts as changed, and when its report says the same by its
  moves;
* `not_moves_iff_changed`: a file that stays as it is can have moves in its report.
-/

namespace Relocation

open Text

-- ---------------------------------------------------------------------------
-- Trimmed texts
-- ---------------------------------------------------------------------------

section Trimmed

variable {text kept as bs : List Char} {c d : Char} {n : Nat}

/-- A text is a trimmed text with blanks around it. -/
theorem exists_trim (text : List Char) :
    ∃ tail, text = text.takeWhile isBlank ++ (trim text ++ tail) ∧ allBlank tail = true := by
  have hFront : text = text.takeWhile isBlank ++ dropBlank text :=
    List.takeWhile_append_dropWhile.symm
  have hBack : (dropBlank text).reverse = (dropBlank text).reverse.takeWhile isBlank
      ++ dropBlank (dropBlank text).reverse := List.takeWhile_append_dropWhile.symm
  refine ⟨((dropBlank text).reverse.takeWhile isBlank).reverse, ?_, ?_⟩
  · rw [trim, ← List.reverse_append, ← hBack, List.reverse_reverse, ← hFront]
  · rw [allBlank, List.all_reverse]
    exact List.all_takeWhile

/-- A character that is not blank stays when the text is trimmed. -/
theorem Text.CharAt.trim (h : CharAt text n c) (hc : isBlank c = false) :
    ∃ m, n = byteLength (text.takeWhile isBlank) + m ∧ CharAt (trim text) m c := by
  have hNot {front : List Char} (hFront : allBlank front = true) : c ∉ front := fun hMem => by
    rw [List.all_eq_true.1 hFront c hMem] at hc
    contradiction
  obtain ⟨tail, hText, hTail⟩ := exists_trim text
  rw [hText] at h
  rcases h.of_append with hLead | ⟨m, hm, hRest⟩
  · exact absurd hLead.mem (hNot List.all_takeWhile)
  rcases hRest.of_append with hHere | ⟨k, -, hBehind⟩
  · exact ⟨m, hm, hHere⟩
  · exact absurd hBehind.mem (hNot hTail)

/-- The blanks at the start lie in front of a character that is not blank. -/
theorem takeWhile_append_of_filled (hKept : ∃ e ∈ kept, isBlank e = false) (bs : List Char) :
    (kept ++ bs).takeWhile isBlank = kept.takeWhile isBlank := by
  obtain ⟨e, hMem, he⟩ := hKept
  obtain ⟨front, behind, rfl⟩ := List.append_of_mem hMem
  rw [List.append_assoc, List.cons_append, List.takeWhile_append, List.takeWhile_append,
    List.takeWhile_cons_of_neg (by simp [he]), List.takeWhile_cons_of_neg (by simp [he])]

/-- Behind a front part that is not blank, a change between characters that are not blank shows in
the trimmed texts. -/
theorem trim_ne (hKept : ∃ e ∈ kept, isBlank e = false) (hOld : CharAt (kept ++ as) n c)
    (hNew : CharAt (kept ++ bs) n d) (hNe : c ≠ d) (hc : isBlank c = false)
    (hd : isBlank d = false) : trim (kept ++ as) ≠ trim (kept ++ bs) := by
  intro hSame
  obtain ⟨m, hm, hOld⟩ := hOld.trim hc
  obtain ⟨k, hk, hNew⟩ := hNew.trim hd
  rw [takeWhile_append_of_filled hKept] at hm hk
  obtain rfl : m = k := by omega
  rw [hSame] at hOld
  exact hNe (hOld.unique hNew)

end Trimmed

-- ---------------------------------------------------------------------------
-- Changed texts
-- ---------------------------------------------------------------------------

variable {source fileName : String}

/-- In front of the path that an import moves to stands a character that is not blank. -/
theorem exists_filled {moving : LocatedImport × String} {kept rest : List Char}
    (hMoving : moving ∈ movingImports .monocdk (importsOf source fileName))
    (hKept : byteLength kept = moving.1.path.start + 1) (hSource : source.toList = kept ++ rest) :
    ∃ e ∈ kept, isBlank e = false := by
  obtain ⟨front, c, d, follow, hBlanks, hScoped, hFront⟩ := exists_scoped hMoving
  have hHere {n : Nat} {e : Char} (hChar : CharAt source.toList n e) (hLt : n < byteLength kept) :
      e ∈ kept := by
    rw [hSource] at hChar
    rcases hChar.of_append with hFront | ⟨m, rfl, -⟩
    · exact hFront.mem
    · omega
  by_cases hMark : (front ++ c :: d :: follow).head? = some '\ufeff'
  · -- the mark itself
    have hStart : CharAt (front ++ c :: d :: follow) 0 '\ufeff' := by
      obtain ⟨rest, hRest⟩ := List.head?_eq_some_iff.1 hMark
      exact ⟨[], rest, hRest, rfl⟩
    exact ⟨_, hHere ((hBlanks.charAt hStart).resolve_right (by decide)) (by omega), by decide⟩
  · -- the character that opens the literal
    rw [markLength, if_neg hMark] at hFront
    exact ⟨c, hHere (hScoped.charAt hBlanks).1 (by omega), hScoped.opens.1⟩

/-- Relocation changes a text if and only if it changes more than the blanks around it. -/
theorem trim_relocate_ne_iff (text fileName : String) :
    trim (relocate text fileName).toList ≠ trim text.toList ↔ relocate text fileName ≠ text := by
  refine ⟨fun hTrim hSelf => hTrim (by rw [hSelf]), fun hChanged => ?_⟩
  obtain ⟨hSelf, -⟩ | ⟨moving, hMoving, -, kept, rest, behind, hText, hResult, hKept⟩ :=
    relocate_cases text fileName
  · exact absurd hSelf hChanged
  · obtain ⟨n, c, d, hOld, hNew, hNe, hc, hd⟩ := target_shows hMoving hKept behind
    rw [hResult, hText]
    rw [hText] at hOld
    exact (trim_ne (exists_filled hMoving hKept hText) hOld hNew hNe hc hd).symm

-- ---------------------------------------------------------------------------
-- Reports
-- ---------------------------------------------------------------------------

/-- What is reported of a file with the text, and what is left behind. -/
def processed (tree : FileTree) (dryRun : Bool) (path : Path) (text : String) : Report × FileTree :=
  let changed := relocate text path.toString != text
  (⟨path.toString, changed, changed && !dryRun, (relocateWith .monocdk text path.toString).moves⟩,
    if changed && !dryRun then tree.write path (relocate text path.toString) else tree)

/-- A file that can be read is processed. -/
theorem FileTree.process_of_read {tree : FileTree} {path : Path} {text : String}
    (hRead : tree.read path = .ok text) (dryRun : Bool) :
    tree.process dryRun path = .ok (processed tree dryRun path text) := by
  have hChanged : (trim (relocate text path.toString).toList != trim text.toList)
      = (relocate text path.toString != text) := by
    rw [Bool.eq_iff_iff, bne_iff_ne, bne_iff_ne]
    exact trim_relocate_ne_iff text path.toString
  rw [FileTree.process, hRead, processed, ← hChanged]
  rfl

/-- **Changed files and their moves.** A file that can be read is processed, and its report counts
it as changed if and only if the new text differs from the old one. So what is left out of the
comparison, the blanks around a text, makes no difference.

The moves of the report are a record of what was to be done. They tell of a change exactly where
the report does if and only if no import moves, or one that moves can be edited. `hRead` says that
the path leads to a file with a valid text; the run may be a dry one or not. -/
theorem changed_process_iff {tree : FileTree} {path : Path} {text : String}
    (hRead : tree.read path = .ok text) (dryRun : Bool) :
    ∃ report next, tree.process dryRun path = .ok (report, next) ∧
      (report.changed = true ↔ relocate text path.toString ≠ text) ∧
      ((report.changed = true ↔ report.moves ≠ []) ↔
        movingImports .monocdk (importsOf text path.toString) = [] ∨
          ∃ moving ∈ movingImports .monocdk (importsOf text path.toString),
            (replacementOf moving).fits text.toList = true) := by
  have hChanged : (processed tree dryRun path text).1.changed = true ↔
      relocate text path.toString ≠ text := bne_iff_ne
  have hMoves : (processed tree dryRun path text).1.moves = [] ↔
      movingImports .monocdk (importsOf text path.toString) = [] := by
    rw [processed, relocateWith_eq_ofImports]
    exact List.map_eq_nil_iff
  have hEdited : relocate text path.toString ≠ text ↔
      ∃ moving ∈ movingImports .monocdk (importsOf text path.toString),
        (replacementOf moving).fits text.toList = true := by
    rw [ne_eq, relocate_eq_self_iff]
    push Not
    simp only [ne_eq, Bool.not_eq_false]
  refine ⟨(processed tree dryRun path text).1, (processed tree dryRun path text).2,
    FileTree.process_of_read hRead dryRun, hChanged, ?_⟩
  rw [hChanged, hEdited, ne_eq, hMoves]
  constructor
  · intro hSame
    by_cases hNil : movingImports .monocdk (importsOf text path.toString) = []
    · exact .inl hNil
    · exact .inr (hSame.2 hNil)
  · rintro (hNil | hSome)
    · simp [hNil]
    · obtain ⟨moving, hMem, hFits⟩ := hSome
      exact ⟨fun _ => List.ne_nil_of_mem hMem, fun _ => ⟨moving, hMem, hFits⟩⟩

/-- An import path that no quote closes, with a last character of two bytes. -/
def openPath : String := "import '@aws-cdk/\u00e9\n"

/-- The file with the open path. -/
def openPathFile : Path := ⟨"a.ts".toList⟩

/-- A tree that holds nothing but this file, with the text. -/
def soloTree (text : String) : FileTree :=
  ⟨.directory (.entry "a.ts".toList (.file text.toUTF8) .none), []⟩

theorem read_soloTree (text : String) : (soloTree text).read openPathFile = .ok text := by
  have hResolve : (soloTree text).resolve openPathFile = .ok ["a.ts".toList] := by
    rw [FileTree.resolve_of_short (by decide) (by decide) (by decide)]
    exact (FileTree.follow_file rfl (by decide) rfl).trans FileTree.follow_nil
  exact FileTree.read_of_file hResolve rfl

/-- The import of the open path moves and cannot be edited. -/
theorem movingImports_openPath :
    ∃ moving, movingImports .monocdk (importsOf openPath openPathFile.toString) = [moving] ∧
      (replacementOf moving).fits openPath.toList = false := by
  refine ⟨(⟨.sideEffect, ⟨7, 19, "@aws-cdk/\u00e9"⟩⟩, "monocdk/\u00e9"), ?_, ?_⟩
  · rw [importsOf_eq_unsorted]
    decide +kernel
  · decide +kernel

/-- The file with the open path stays as it is, and its report says otherwise. -/
theorem process_openPath :
    (soloTree openPath).read openPathFile = .ok openPath ∧
      ∃ report next, (soloTree openPath).process false openPathFile = .ok (report, next) ∧
        (report.changed = true ↔ relocate openPath openPathFile.toString ≠ openPath) ∧
        ¬(report.changed = true ↔ report.moves ≠ []) := by
  obtain ⟨report, next, hProcess, hChanged, hMoves⟩ :=
    changed_process_iff (read_soloTree openPath) false
  obtain ⟨moving, hMoving, hFits⟩ := movingImports_openPath
  refine ⟨read_soloTree openPath, report, next, hProcess, hChanged, fun hSame => ?_⟩
  have hEdited := hMoves.1 hSame
  simp [hMoving, hFits] at hEdited

/-- Not every file that has moves in its report has changed: a literal that is not closed is
located, but where its last character takes two bytes the splicer passes it over. -/
theorem not_moves_iff_changed :
    ¬∀ (tree : FileTree) (path : Path) (text : String) (dryRun : Bool),
      tree.read path = .ok text → ∃ report next, tree.process dryRun path = .ok (report, next) ∧
        (report.changed = true ↔ relocate text path.toString ≠ text) ∧
        (report.changed = true ↔ report.moves ≠ []) := by
  intro h
  obtain ⟨report, next, hProcess, hChanged, hSame⟩ := h _ _ _ false (read_soloTree openPath)
  obtain ⟨moving, hMoving, hFits⟩ := movingImports_openPath
  have hKept : relocate openPath openPathFile.toString = openPath := by
    rw [relocate_eq_self_iff, hMoving]
    simpa using hFits
  have hMoves : report.moves ≠ [] := by
    rw [FileTree.process_of_read (read_soloTree openPath), processed,
      relocateWith_eq_ofImports] at hProcess
    obtain ⟨rfl, -⟩ := Prod.mk.inj (Except.ok.inj hProcess)
    show (movingImports .monocdk (importsOf openPath openPathFile.toString)).map _ ≠ []
    rw [hMoving]
    exact List.cons_ne_nil _ _
  exact hChanged.1 (hSame.2 hMoves) hKept

end Relocation

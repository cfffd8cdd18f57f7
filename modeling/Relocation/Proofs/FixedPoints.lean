import Relocation.Proofs.ReadBack
import Relocation.Proofs.Targets

/-!
# Texts that relocation keeps

Relocating by the built-in rules keeps a text if and only if none of its moving imports can be
edited. An edit is never idle: where a path of the scope was read, the new path does not stand
already, however the old one was spelled and wherever a byte order mark has moved its range to.

No path that the rules give moves any further. So if relocating a second time changes a text, then
the first time has brought an import to light that was not read before.

## Results

* `Rules.relocate?_settled`: the built-in rules are settled after one step;
* `relocate_eq_self_iff`: the texts that relocation keeps;
* `relocate_relocate_iff`: when relocating twice is the same as relocating once.
-/

namespace Relocation

open Text TypeScript

variable {source fileName : String}

-- ---------------------------------------------------------------------------
-- The built-in rules
-- ---------------------------------------------------------------------------

namespace Rules

/-- Where the path is found after relocation. -/
def settled (rules : Rules) (path : String) : String := (rules.relocate? path).getD path

/-- The built-in rules move paths that start with `@a` to paths that start with `mon` or `@mo`. -/
theorem relocate?_monocdk {path target : String} (h : monocdk.relocate? path = some target) :
    (∃ more, path.toList = '@' :: 'a' :: more) ∧
      ((∃ more, target.toList = 'm' :: 'o' :: 'n' :: more) ∨
        ∃ more, target.toList = '@' :: 'm' :: 'o' :: more) := by
  obtain ⟨rest, hPath, ⟨-, rfl⟩ | hName | hTarget⟩ := relocate?_cases h
  · exact ⟨⟨_, hPath⟩, .inl ⟨_, rfl⟩⟩
  · refine ⟨⟨_, hPath⟩, .inr ?_⟩
    rcases List.mem_pair.1 hName with hEntry | hEntry
    all_goals
      obtain ⟨-, rfl⟩ := Prod.mk.inj hEntry
      exact ⟨_, rfl⟩
  · exact ⟨⟨_, hPath⟩, .inl ⟨_, hTarget⟩⟩

/-- The built-in rules are settled after one step. -/
theorem relocate?_settled (path : String) : monocdk.relocate? (monocdk.settled path) = none := by
  unfold settled
  cases hMoves : monocdk.relocate? path with
  | none => exact hMoves
  | some target =>
    exact relocate?_eq_none_iff.2 (.inl (leavesScope_monocdk.remainder?_eq_none hMoves))

end Rules

-- ---------------------------------------------------------------------------
-- The front of a literal
-- ---------------------------------------------------------------------------

/-- The first character of a value is written as itself or as an escape. -/
theorem TypeScript.Inside.of_value_cons {quote c : Char} {next : Option Char}
    {raw value : List Char} (h : Inside quote next raw (c :: value)) :
    (∃ rest, raw = '\\' :: rest) ∨ ∃ rest, raw = c :: rest ∧ Inside quote next rest value := by
  generalize hValue : c :: value = whole at h
  cases h with
  | nil => contradiction
  | plain _ _ _ hRest =>
    obtain ⟨rfl, rfl⟩ := List.cons.inj hValue
    exact .inr ⟨_, rfl, hRest⟩
  | escape => exact .inl ⟨_, rfl⟩

/-- The front of a text that is read as a path of the scope: a quote or a mark, and behind it an
escape, an `@` with an `a` or an escape behind it, or more of the mark. -/
structure Scoped (c d : Char) (behind : List Char) : Prop where
  thin : c.utf8Size = 1
  opens : isBlank c = false ∧ c ≠ 'n' ∧ c ≠ 'o'
  follows : isBlank d = false ∧ d ≠ 'm'
  third : d = '@' → ∃ e more, behind = e :: more ∧ isBlank e = false ∧ e ≠ 'm'

theorem Scoped.of_quote {quote : Char} {next : Option Char} {raw value behind : List Char}
    (hQuote : IsQuote quote) (h : Inside quote next raw ('@' :: 'a' :: value)) :
    ∃ d more, raw ++ behind = d :: more ∧ Scoped quote d more := by
  have hOpens : isBlank quote = false ∧ quote ≠ 'n' ∧ quote ≠ 'o' := by
    rcases hQuote with rfl | rfl <;> decide
  rcases h.of_value_cons with ⟨rest, rfl⟩ | ⟨rest, rfl, hRest⟩
  · exact ⟨'\\', rest ++ behind, rfl, hQuote.utf8Size, hOpens, by decide,
      fun hAt => absurd hAt (by decide)⟩
  · rcases hRest.of_value_cons with ⟨rest, rfl⟩ | ⟨rest, rfl, -⟩
    · exact ⟨'@', '\\' :: (rest ++ behind), rfl, hQuote.utf8Size, hOpens, by decide,
        fun _ => ⟨_, _, rfl, by decide⟩⟩
    · exact ⟨'@', 'a' :: (rest ++ behind), rfl, hQuote.utf8Size, hOpens, by decide,
        fun _ => ⟨_, _, rfl, by decide⟩⟩

/-- Whether the text starts with two characters that a mark may start with. -/
def startsLikeMark : List Char → Bool
  | c :: d :: _ => decide (c.utf8Size = 1 ∧ (isBlank c = false ∧ c ≠ 'n' ∧ c ≠ 'o') ∧
      (isBlank d = false ∧ d ≠ 'm') ∧ d ≠ '@')
  | _ => false

/-- The first two characters of a mark. -/
theorem Scoped.of_mark {mark : String} {behind : List Char} (h : mark ∈ lineMarks) :
    ∃ c d more, mark.toList ++ behind = c :: d :: more ∧ Scoped c d more := by
  have hAll : (lineMarks.all fun mark => startsLikeMark mark.toList) = true := by decide
  have hFront := List.all_eq_true.1 hAll mark h
  cases hMark : mark.toList with
  | nil => simp [hMark, startsLikeMark] at hFront
  | cons c cs =>
    cases cs with
    | nil => simp [hMark, startsLikeMark] at hFront
    | cons d cs =>
      rw [hMark] at hFront
      obtain ⟨hThin, hOpens, hFollows, hNotAt⟩ := of_decide_eq_true hFront
      exact ⟨c, d, cs ++ behind, rfl, hThin, hOpens, hFollows, fun hAt => absurd hAt hNotAt⟩

/-- A string token with a path of the scope. -/
theorem TypeScript.StringToken.scoped {rest more : List Char} {length : Nat} {value : String}
    (h : StringToken rest length value) (hValue : value.toList = '@' :: 'a' :: more) :
    ∃ c d behind, rest = c :: d :: behind ∧ Scoped c d behind := by
  cases h with
  | @closed quote raw value behind hQuote hInside =>
    rw [String.toList_ofList] at hValue
    subst hValue
    obtain ⟨d, behind, hText, hScoped⟩ := Scoped.of_quote hQuote hInside
    exact ⟨quote, d, behind, by rw [hText], hScoped⟩
  | @unclosed quote raw value behind hQuote hInside _ =>
    rw [String.toList_ofList] at hValue
    subst hValue
    obtain ⟨d, behind, hText, hScoped⟩ := Scoped.of_quote hQuote hInside
    exact ⟨quote, d, behind, by rw [hText], hScoped⟩
  | @attributeValue quote raw behind hQuote _ =>
    rw [String.toList_ofList] at hValue
    subst hValue
    have hOpens : isBlank quote = false ∧ quote ≠ 'n' ∧ quote ≠ 'o' := by
      rcases hQuote with rfl | rfl <;> decide
    exact ⟨quote, '@', _, rfl, hQuote.utf8Size, hOpens, by decide, fun _ => ⟨_, _, rfl, by decide⟩⟩
  | behindMark hMark _ => exact Scoped.of_mark hMark

-- ---------------------------------------------------------------------------
-- Edits are not idle
-- ---------------------------------------------------------------------------

theorem markLength_cases (text : List Char) : markLength text = 0 ∨ markLength text = 3 := by
  unfold markLength
  split
  · exact .inr rfl
  · exact .inl rfl

/-- The front of a path of the scope stands in the source, since none of it is blank. -/
theorem Scoped.charAt {source front behind : List Char} {c d : Char} (h : Scoped c d behind)
    (hBlanks : Blanks source (front ++ c :: d :: behind)) :
    CharAt source (byteLength front) c ∧ CharAt source (byteLength front + 1) d ∧
      (d = '@' →
        ∃ e, (isBlank e = false ∧ e ≠ 'm') ∧ CharAt source (byteLength front + 2) e) := by
  have hKept (more : List Char) {e : Char} {rest : List Char}
      (hText : front ++ c :: d :: behind = front ++ (more ++ e :: rest))
      (hNot : isBlank e = false) : CharAt source (byteLength front + byteLength more) e := by
    have hChar : CharAt (front ++ c :: d :: behind) (byteLength front + byteLength more) e :=
      ⟨front ++ more, rest, by rw [hText, List.append_assoc], byteLength_append front more⟩
    exact (hBlanks.charAt hChar).resolve_right (by simp [hNot])
  have hThin := h.thin
  refine ⟨hKept [] rfl h.opens.1, ?_, ?_⟩
  · have hSecond := hKept [c] rfl h.follows.1
    rwa [byteLength_cons, byteLength_nil, hThin] at hSecond
  · rintro rfl
    obtain ⟨e, more, rfl, hNotBlank, hNot⟩ := h.third rfl
    have hThird := hKept [c, '@'] rfl hNotBlank
    rw [byteLength_cons, byteLength_cons, byteLength_nil, hThin] at hThird
    exact ⟨e, ⟨hNotBlank, hNot⟩, hThird⟩

/-- Characters in a row stand one byte behind the other as long as they are of one byte. -/
theorem charAt_row {front rest : List Char} {a b c : Char} (ha : a.utf8Size = 1)
    (hb : b.utf8Size = 1) :
    CharAt (front ++ a :: b :: c :: rest) (byteLength front) a ∧
      CharAt (front ++ a :: b :: c :: rest) (byteLength front + 1) b ∧
      CharAt (front ++ a :: b :: c :: rest) (byteLength front + 2) c :=
  ⟨⟨front, _, rfl, rfl⟩, ⟨front ++ [a], c :: rest, by simp, by simp [ha]⟩,
    ⟨front ++ [a, b], rest, by simp, by simp [ha, hb]⟩⟩

/-- A moving import is read at its range, moved by the mark, from a path of the scope. -/
theorem exists_scoped {moving : LocatedImport × String}
    (hMoving : moving ∈ movingImports .monocdk (importsOf source fileName)) :
    ∃ front c d behind, Blanks source.toList (front ++ c :: d :: behind) ∧ Scoped c d behind ∧
      byteLength front = moving.1.path.start + markLength (front ++ c :: d :: behind) := by
  obtain ⟨hLocated, hMoves⟩ := mem_movingImports.1 hMoving
  obtain ⟨⟨more, hValue⟩, -⟩ := Rules.relocate?_monocdk hMoves
  obtain ⟨text, -, hAccounted, rest, length, ⟨front, rfl, hFront⟩, hToken, -⟩ :=
    importsOf_placed hLocated
  obtain ⟨c, d, behind, rfl, hScoped⟩ := hToken.scoped hValue
  exact ⟨front, c, d, behind, hAccounted.blanks, hScoped, by omega⟩

/-- Where an import moves, the path that it moves to shows: at some place behind the first byte of
its range, the source and a text with the new path there have different characters, of which none is
blank. -/
theorem target_shows {moving : LocatedImport × String} {kept : List Char}
    (hMoving : moving ∈ movingImports .monocdk (importsOf source fileName))
    (hKept : byteLength kept = moving.1.path.start + 1) (behind : List Char) :
    ∃ n c d, CharAt source.toList n c ∧ CharAt (kept ++ (moving.2.toList ++ behind)) n d ∧
      c ≠ d ∧ isBlank c = false ∧ isBlank d = false := by
  obtain ⟨-, hTarget⟩ := Rules.relocate?_monocdk (mem_movingImports.1 hMoving).2
  obtain ⟨front, c, d, follow, hBlanks, hScoped, hFront⟩ := exists_scoped hMoving
  obtain ⟨hFirst, hSecond, hThird⟩ := hScoped.charAt hBlanks
  rcases markLength_cases (front ++ c :: d :: follow) with hMark | hMark
  · -- the path is read where it stands, and the new one starts otherwise
    have hHere : byteLength front + 1 = byteLength kept := by omega
    have hNext : byteLength front + 2 = byteLength kept + 1 := by omega
    rw [hHere] at hSecond
    rw [hNext] at hThird
    rcases hTarget with ⟨more, hTarget⟩ | ⟨more, hTarget⟩
    · rw [hTarget]
      exact ⟨_, d, 'm', hSecond, (charAt_row rfl rfl).1, hScoped.follows.2, hScoped.follows.1,
        by decide⟩
    · rw [hTarget]
      by_cases hAt : d = '@'
      · obtain ⟨e, ⟨hNotBlank, hNot⟩, hThird⟩ := hThird hAt
        exact ⟨_, e, 'm', hThird, (charAt_row rfl rfl).2.1, hNot, hNotBlank, by decide⟩
      · exact ⟨_, d, '@', hSecond, (charAt_row rfl rfl).1, hAt, hScoped.follows.1, by decide⟩
  · -- the literal starts three bytes further on, where the new path would have its third letter
    have hHere : byteLength front = byteLength kept + 2 := by omega
    rw [hHere] at hFirst
    rcases hTarget with ⟨more, hTarget⟩ | ⟨more, hTarget⟩
    · rw [hTarget]
      exact ⟨_, c, 'n', hFirst, (charAt_row rfl rfl).2.2, hScoped.opens.2.1, hScoped.opens.1,
        by decide⟩
    · rw [hTarget]
      exact ⟨_, c, 'o', hFirst, (charAt_row rfl rfl).2.2, hScoped.opens.2.2, hScoped.opens.1,
        by decide⟩

/-- Behind the first byte of its range, the text does not go on with the path that an import moves
to. -/
theorem not_target_behind {moving : LocatedImport × String} {kept behind : List Char}
    (hMoving : moving ∈ movingImports .monocdk (importsOf source fileName))
    (hKept : byteLength kept = moving.1.path.start + 1) :
    source.toList ≠ kept ++ (moving.2.toList ++ behind) := by
  intro hSource
  obtain ⟨n, c, d, hOld, hNew, hNe, -⟩ := target_shows hMoving hKept behind
  rw [hSource] at hOld
  exact hNe (hOld.unique hNew)

-- ---------------------------------------------------------------------------
-- Fixed points
-- ---------------------------------------------------------------------------

/-- Imports follow one another, so the edits are made from the last import to the first. -/
theorem relocate_eq_foldl (source fileName : String) :
    relocate source fileName =
      String.ofList ((replacementsOf .monocdk source fileName).reverse.foldl Editing.apply
        (Editing.start source.toList)).chars := by
  rw [relocate, relocateWith_text, splice,
    latestFirst_of_ordered (ordered_replacementsOf .monocdk source fileName)]

/-- Either no moving import can be edited and the text is kept, or there is a first edit, and in
front of it the text is kept. -/
theorem relocate_cases (text fileName : String) :
    (relocate text fileName = text ∧
        ∀ moving ∈ movingImports .monocdk (importsOf text fileName),
          (replacementOf moving).fits text.toList = false) ∨
      ∃ moving ∈ movingImports .monocdk (importsOf text fileName),
        (replacementOf moving).fits text.toList = true ∧
          ∃ kept rest behind, text.toList = kept ++ rest ∧
            (relocate text fileName).toList = kept ++ (moving.2.toList ++ behind) ∧
            byteLength kept = moving.1.path.start + 1 := by
  have hMade := madeReplacements_of_ordered (ordered_replacementsOf .monocdk text fileName)
  have hPatched := splice_patched text (replacementsOf .monocdk text fileName)
  rw [← relocateWith_text] at hPatched
  cases hEdits : madeReplacements text (replacementsOf .monocdk text fileName) with
  | nil =>
    left
    rw [hEdits] at hPatched
    refine ⟨String.toList_inj.1 hPatched.eq_of_nil, fun moving hMoving => ?_⟩
    rw [hMade, List.filter_eq_nil_iff] at hEdits
    simpa using hEdits _ (List.mem_map_of_mem hMoving)
  | cons r rs =>
    right
    have hMem : r ∈ madeReplacements text (replacementsOf .monocdk text fileName) := by
      rw [hEdits]
      exact List.mem_cons_self
    rw [hMade, List.mem_filter] at hMem
    obtain ⟨hMem, hFits⟩ := hMem
    obtain ⟨moving, hMoving, rfl⟩ := List.mem_map.1 hMem
    rw [hEdits, ← List.nil_append (_ :: rs)] at hPatched
    obtain ⟨kept, inside, behind, kept', behind', hText, hResult, hStart, -, hFront, -⟩ :=
      hPatched.split
    obtain rfl := hFront.eq_of_nil
    rw [List.append_assoc] at hText hResult
    exact ⟨moving, hMoving, hFits, _, _, _, hText, hResult, by simpa [replacementOf] using hStart⟩

/-- Relocation keeps a text if and only if none of its moving imports can be edited. -/
theorem relocate_eq_self_iff (text fileName : String) :
    relocate text fileName = text ↔
      ∀ moving ∈ movingImports .monocdk (importsOf text fileName),
        (replacementOf moving).fits text.toList = false := by
  rcases relocate_cases text fileName with
    ⟨hSelf, hNone⟩ | ⟨moving, hMoving, hFits, kept, rest, behind, -, hResult, hKept⟩
  · exact ⟨fun _ => hNone, fun _ => hSelf⟩
  · constructor
    · -- the first edit puts in what did not stand there
      intro hSelf
      rw [hSelf] at hResult
      exact absurd hResult (not_target_behind hMoving hKept)
    · intro hNone
      rw [hNone moving hMoving] at hFits
      contradiction

/-- **Relocating twice.** Relocating the result of a relocation changes it if and only if it has
some import that moves and can be edited, that is, one whose range has room for two quotes and can
be cut inside them. None of these imports has a path that relocating has led to: each was brought
to light by it, since a path that is put in raw may end its literal early or make one out of what
was none.

There is no hypothesis; the two parts hold for the built-in rules, every source and every file
name, also where the source or the result cannot be parsed. -/
theorem relocate_relocate_iff (source fileName : String) :
    (relocate (relocate source fileName) fileName = relocate source fileName ↔
        ∀ moving ∈ movingImports .monocdk (importsOf (relocate source fileName) fileName),
          (replacementOf moving).fits (relocate source fileName).toList = false) ∧
      ∀ moving ∈ movingImports .monocdk (importsOf (relocate source fileName) fileName),
        ∀ located ∈ importsOf source fileName,
          moving.1.path.value ≠ Rules.monocdk.settled located.path.value := by
  refine ⟨relocate_eq_self_iff _ fileName, fun moving hMoving located _ hSame => ?_⟩
  have hMoves := (mem_movingImports.1 hMoving).2
  rw [hSame, Rules.relocate?_settled] at hMoves
  contradiction

/-- A path with a quote of its own, and behind the quote what could be a call. -/
def escapedCall : String := "import '@aws-cdk/\\';require(\"@aws-cdk/core\")//'"

/-- Relocating twice is not always the same as relocating once: the quote in the new path closes
its literal, and the call behind it, which was part of the literal before, comes to light and is
relocated in its turn. -/
theorem not_relocate_relocate :
    ¬∀ source fileName,
      relocate (relocate source fileName) fileName = relocate source fileName := by
  intro h
  have hOnce : relocate escapedCall "a" = "import 'monocdk/';require(\"@aws-cdk/core\")//'" := by
    rw [relocate_eq_foldl]
    decide +kernel
  have hTwice : relocate "import 'monocdk/';require(\"@aws-cdk/core\")//'" "a"
      = "import 'monocdk/';require(\"monocdk\")//'" := by
    rw [relocate_eq_foldl]
    decide +kernel
  have hSame := h escapedCall "a"
  rw [hOnce, hTwice] at hSame
  exact absurd hSame (by decide +kernel)

end Relocation

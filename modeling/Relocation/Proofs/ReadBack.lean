import Relocation.Proofs.Spans

/-!
# Literals read back

A path is decoded from its literal, but the new path is put between the quotes as it is. So what
stands there afterwards is a literal of the new path if and only if there are two quotes of one
kind to put it between, and the path is read as itself between them.

## Results

* `ReadsAsItself.of_plain`: a path without quotes, backslashes and line breaks reads as itself;
* `Patched.spelledBy_iff`: when a patched text spells what was put in;
* `spelledBy_relocateWith_iff`: when a relocated source spells the new path of an import.
-/

namespace Relocation

open Text TypeScript

variable {rules : Rules} {source fileName : String}

-- ---------------------------------------------------------------------------
-- Paths that read as themselves
-- ---------------------------------------------------------------------------

/-- Between the quotes the path is read as itself. -/
def ReadsAsItself (quote : Char) (path : String) : Prop :=
  Body.read quote (path.toList ++ [quote]) = ⟨path.toList, path.toList, .closed, []⟩

theorem readsAsItself_iff {quote : Char} {path : String} (hQuote : IsQuote quote) :
    ReadsAsItself quote path ↔ Inside quote (some quote) path.toList path.toList := by
  rw [ReadsAsItself, Body.read_eq_closed_iff hQuote, and_iff_right rfl]

/-- A path without quotes, backslashes and line breaks reads as itself. -/
theorem ReadsAsItself.of_plain {quote : Char} {path : String} (hQuote : IsQuote quote)
    (h : ∀ c ∈ path.toList, c ≠ quote ∧ c ≠ '\\' ∧ c ≠ '\n' ∧ c ≠ '\r') :
    ReadsAsItself quote path := by
  rw [readsAsItself_iff hQuote]
  generalize path.toList = cs at h
  induction cs with
  | nil => exact .nil
  | cons c cs ih =>
    obtain ⟨hEnd, hEscape, hFeed, hReturn⟩ := h c List.mem_cons_self
    exact .plain hEnd (not_or.2 ⟨hFeed, hReturn⟩) hEscape
      (ih fun d hd => h d (List.mem_cons_of_mem _ hd))

-- ---------------------------------------------------------------------------
-- Patched texts
-- ---------------------------------------------------------------------------

/-- Where an offset comes to lie by the edits that start in front of it. -/
def movedBy (edits : List Replacement) (offset : Nat) : Nat :=
  let earlier := edits.filter fun edit => edit.start < offset
  offset + (earlier.map fun edit => byteLength edit.updated.toList).sum
    - (earlier.map fun edit => edit.stop - edit.start - 2).sum

/-- Of edits that follow one another, those start in front of one of them that precede it. -/
theorem Ordered.filter_start_lt {text : List Char} {before after : List Replacement}
    {r : Replacement} (h : Ordered text (before ++ r :: after)) :
    ((before ++ r :: after).filter fun edit => edit.start < r.start) = before := by
  have hBounds := h.bounds r (by simp)
  obtain ⟨-, hBehind, hBefore⟩ := List.pairwise_append.1 h.ordered
  have hAfter := (List.pairwise_cons.1 hBehind).1
  have hFirst : (before.filter fun edit => edit.start < r.start) = before := by
    refine List.filter_eq_self.2 fun edit hEdit => ?_
    have hStart := (h.bounds edit (by simp [hEdit])).1
    have hStop := hBefore edit hEdit r (by simp)
    exact decide_eq_true (by omega)
  have hRest : ((r :: after).filter fun edit => edit.start < r.start) = [] := by
    refine List.filter_eq_nil_iff.2 fun edit hEdit => ?_
    rcases List.mem_cons.1 hEdit with rfl | hEdit
    · simp
    · have hStart := hAfter edit hEdit
      rw [decide_eq_true_eq]
      omega
  rw [List.filter_append, hFirst, hRest, List.append_nil]

namespace Patched

variable {text result : List Char} {r : Replacement} {before after : List Replacement}

/-- Behind a quote in front of a patch the new inside follows, and then what followed the old one.
The quote lies further on by what the patches before it put in, less what they take out. -/
theorem behind_quote {quote : Char} (h : Patched 0 text (before ++ r :: after) result)
    (hOrdered : Ordered text (before ++ r :: after)) (hThin : quote.utf8Size = 1)
    (hChar : CharAt text r.start quote) :
    ∃ front behind, result = front ++ quote :: (r.updated.toList ++ behind) ∧
      byteLength front = movedBy (before ++ r :: after) r.start ∧
      ∀ c, CharAt text (r.stop - 1) c ↔ behind.head? = some c := by
  have hBounds := hOrdered.bounds r (by simp)
  obtain ⟨-, hBehind, hBefore⟩ := List.pairwise_append.1 hOrdered.ordered
  have hAfter := (List.pairwise_cons.1 hBehind).1
  obtain ⟨kept, inside, behind, kept', behind', hText, rfl, hStart, hStop, hKept, hRest⟩ := h.split
  -- the part in front of the inside ends with the quote, which no patch reaches
  obtain ⟨front, rfl⟩ : ∃ front, kept = front ++ [quote] := by
    obtain ⟨front, rest, hParts, hFront⟩ := hChar
    have hCut : (front ++ [quote]) ++ rest = kept ++ (inside ++ behind) := by
      rw [← List.append_assoc kept, ← hText, hParts]
      simp
    obtain ⟨hSame, -⟩ := append_inj_of_byteLength hCut (by
      rw [byteLength_append, byteLength_cons, byteLength_nil, hThin]
      omega)
    exact ⟨front, hSame.symm⟩
  have hFront : byteLength front = r.start := by
    rw [byteLength_append, byteLength_cons, byteLength_nil, hThin] at hStart
    omega
  obtain ⟨front', rfl, hFrontPatched⟩ := hKept.of_append fun edit hEdit => by
    have := hBefore edit hEdit r (by simp)
    omega
  refine ⟨front', behind', by simp, ?_, fun c => ?_⟩
  · have hLength := hFrontPatched.byteLength_eq
    rw [movedBy, hOrdered.filter_start_lt]
    omega
  · have hHead := hRest.head?_eq fun edit hEdit => by
      have := hAfter edit hEdit
      omega
    have hOffset : r.stop - 1 = byteLength ((front ++ [quote]) ++ inside) := by
      rw [byteLength_append]
      omega
    rw [hText, hOffset, CharAt.append_iff_head?, hHead]

/-- What is put behind a quote is spelled there if and only if the same quote stands behind the old
inside and the new one reads as itself. -/
theorem spelledBy_iff {quote : Char} (h : Patched 0 text (before ++ r :: after) result)
    (hOrdered : Ordered text (before ++ r :: after)) (hQuote : IsQuote quote)
    (hChar : CharAt text r.start quote) :
    let start := movedBy (before ++ r :: after) r.start
    SpelledBy quote result start (start + byteLength r.updated.toList + 2) r.updated ↔
      CharAt text (r.stop - 1) quote ∧ ReadsAsItself quote r.updated := by
  intro start
  obtain ⟨front, behind, rfl, hFront, hEnd⟩ := h.behind_quote hOrdered hQuote.utf8Size hChar
  rw [hEnd, readsAsItself_iff hQuote]
  constructor
  · rintro ⟨front', raw, behind', hText, hFront', hStop, hRead⟩
    obtain ⟨rfl, hRest⟩ := append_inj_of_byteLength hText (hFront.trans hFront'.symm)
    obtain ⟨rfl, rfl⟩ := append_inj_of_byteLength (List.cons.inj hRest).2 (by omega)
    exact ⟨rfl, ((Body.read_eq_closed_iff hQuote).1 hRead).2⟩
  · rintro ⟨hHead, hInside⟩
    obtain ⟨behind, rfl⟩ := List.head?_eq_some_iff.1 hHead
    exact ⟨front, r.updated.toList, behind, rfl, hFront, by omega,
      (Body.read_eq_closed_iff hQuote).2 ⟨rfl, hInside⟩⟩

end Patched

-- ---------------------------------------------------------------------------
-- Relocated sources
-- ---------------------------------------------------------------------------

/-- Where two quotes of one kind stand, a range fits. -/
theorem Replacement.fits_of_quotes {source : List Char} {r : Replacement} {quote : Char}
    (hQuote : IsQuote quote) (hRoom : r.start + 2 ≤ r.stop) (hStart : CharAt source r.start quote)
    (hStop : CharAt source (r.stop - 1) quote) : r.fits source = true := by
  have hBehind := hStart.isBoundary.2
  rw [hQuote.utf8Size] at hBehind
  simp [fits, hRoom, hBehind, hStop.isBoundary.1]

/-- An edit is made and spells its new inside, behind the quote that was there, if and only if its
range has two quotes of one kind at its ends and the inside reads as itself between them. -/
theorem spelledBy_splice_iff {edits : List Replacement} {edit : Replacement}
    (hOrdered : Ordered source.toList edits) (hEdit : edit ∈ edits) :
    let made := madeReplacements source edits
    let start := movedBy made edit.start
    (edit ∈ made ∧ ∃ quote, IsQuote quote ∧ CharAt source.toList edit.start quote ∧
        SpelledBy quote (splice source edits).toList start
          (start + byteLength edit.updated.toList + 2) edit.updated) ↔
      edit.start + 2 ≤ edit.stop ∧ ∃ quote, IsQuote quote ∧
        CharAt source.toList edit.start quote ∧ CharAt source.toList (edit.stop - 1) quote ∧
        ReadsAsItself quote edit.updated := by
  intro made start
  -- edits in the order of the text are made if they fit
  have hMade : made = edits.filter fun r => r.fits source.toList :=
    madeReplacements_of_ordered hOrdered
  have hMem : edit ∈ made ↔ edit.fits source.toList = true := by
    rw [hMade, List.mem_filter, and_iff_right hEdit]
  -- an edit that is made exchanges what is between the ends of its range
  have hSpelled (hFits : edit ∈ made) {quote : Char} (hQuote : IsQuote quote)
      (hChar : CharAt source.toList edit.start quote) :
      SpelledBy quote (splice source edits).toList start
          (start + byteLength edit.updated.toList + 2) edit.updated ↔
        CharAt source.toList (edit.stop - 1) quote ∧ ReadsAsItself quote edit.updated := by
    have hPatched : Patched 0 source.toList made (splice source edits).toList :=
      splice_patched source edits
    have hMadeOrdered : Ordered source.toList made :=
      hOrdered.sublist (hMade ▸ List.filter_sublist)
    obtain ⟨before, after, hParts⟩ := List.append_of_mem hFits
    rw [show start = movedBy made edit.start from rfl, hParts]
    rw [hParts] at hPatched hMadeOrdered
    exact hPatched.spelledBy_iff hMadeOrdered hQuote hChar
  constructor
  · rintro ⟨hFits, quote, hQuote, hChar, hText⟩
    obtain ⟨hEnd, hReads⟩ := (hSpelled hFits hQuote hChar).1 hText
    have hRoom : edit.start + 2 ≤ edit.stop := by
      have hCuts := hMem.1 hFits
      simp only [Replacement.fits, Bool.and_eq_true, decide_eq_true_eq] at hCuts
      exact hCuts.1.1
    exact ⟨hRoom, quote, hQuote, hChar, hEnd, hReads⟩
  · rintro ⟨hRoom, quote, hQuote, hChar, hEnd, hReads⟩
    have hFits := hMem.2 (Replacement.fits_of_quotes hQuote hRoom hChar hEnd)
    exact ⟨hFits, quote, hQuote, hChar, (hSpelled hFits hQuote hChar).2 ⟨hEnd, hReads⟩⟩

/-- Each move stands beside the edit that makes it. -/
theorem target_of_mem_zip {entry : Move} {edit : Replacement}
    (h : (entry, edit) ∈
      (relocateWith rules source fileName).moves.zip (replacementsOf rules source fileName)) :
    edit ∈ replacementsOf rules source fileName ∧ entry.target = edit.updated := by
  refine ⟨(List.of_mem_zip h).2, ?_⟩
  rw [relocateWith_eq_ofImports, Relocated.ofImports, replacementsOf, List.zip_map'] at h
  obtain ⟨moving, -, hPair⟩ := List.mem_map.1 h
  obtain ⟨rfl, rfl⟩ := Prod.mk.inj hPair
  rfl

/-- **Reading a move back.** Where a move has been made, the new text should spell the new path
behind the quote of the old literal, as far on as the edits in front of it have moved that quote.
It does so if and only if the range of the old literal has two quotes of one kind at its ends and
the path reads as itself between them: a backslash in a path is read as an escape, and a quote
closes the literal too early.

`hEntry` says that the move is one of those that relocating lists, together with the replacement
that is to make it. Any source, any file name and any table of rules are allowed. -/
theorem spelledBy_relocateWith_iff {entry : Move} {edit : Replacement}
    (hEntry : (entry, edit) ∈
      (relocateWith rules source fileName).moves.zip (replacementsOf rules source fileName)) :
    let text := (relocateWith rules source fileName).text
    let made := madeReplacements source (replacementsOf rules source fileName)
    let start := movedBy made edit.start
    (edit ∈ made ∧ ∃ quote, IsQuote quote ∧ CharAt source.toList edit.start quote ∧
        SpelledBy quote text.toList start (start + byteLength entry.target.toList + 2)
          entry.target) ↔
      edit.start + 2 ≤ edit.stop ∧ ∃ quote, IsQuote quote ∧
        CharAt source.toList edit.start quote ∧ CharAt source.toList (edit.stop - 1) quote ∧
        ReadsAsItself quote entry.target := by
  intro text made start
  obtain ⟨hEdit, hTarget⟩ := target_of_mem_zip hEntry
  rw [show text = splice source _ from relocateWith_text rules source fileName, hTarget]
  exact spelledBy_splice_iff (ordered_replacementsOf rules source fileName) hEdit

/-- The path of the second line reads back behind the path of the first one. -/
theorem spelledBy_twoLines :
    (⟨.require, 2, "@aws-cdk/s3", "monocdk/s3"⟩, ⟨31, 44, "monocdk/s3"⟩) ∈
        (relocateWith .monocdk twoLines "a").moves.zip (replacementsOf .monocdk twoLines "a") ∧
      ∃ quote, IsQuote quote ∧
        SpelledBy quote (relocateWith .monocdk twoLines "a").text.toList 25 37 "monocdk/s3" := by
  have hEntry : (⟨.require, 2, "@aws-cdk/s3", "monocdk/s3"⟩, ⟨31, 44, "monocdk/s3"⟩) ∈
      (relocateWith .monocdk twoLines "a").moves.zip
        (replacementsOf .monocdk twoLines "a") := by
    decide +kernel
  have hStart :
      movedBy (madeReplacements twoLines (replacementsOf .monocdk twoLines "a")) 31 = 25 := by
    rw [madeReplacements_of_ordered (ordered_replacementsOf .monocdk twoLines "a")]
    decide +kernel
  have hPlain : ("monocdk/s3".toList.all fun c =>
      decide (c ≠ '"' ∧ c ≠ '\\' ∧ c ≠ '\n' ∧ c ≠ '\r')) = true := by
    decide +kernel
  have hReads : ReadsAsItself '"' "monocdk/s3" :=
    .of_plain (.inr rfl) fun c hc => of_decide_eq_true (List.all_eq_true.1 hPlain c hc)
  obtain ⟨-, quote, hQuote, -, hText⟩ := (spelledBy_relocateWith_iff hEntry).2
    ⟨by decide, '"', .inr rfl,
      ⟨"import '@aws-cdk/core'\nrequire(".toList, "@aws-cdk/s3\")".toList, by decide +kernel⟩,
      ⟨"import '@aws-cdk/core'\nrequire(\"@aws-cdk/s3".toList, [')'], by decide +kernel⟩, hReads⟩
  rw [hStart] at hText
  exact ⟨hEntry, quote, hQuote, hText⟩

/-- A path with a quote of its own. -/
def escapedQuote : String := "import '@aws-cdk/it\\'s';"

/-- Not every move reads back: a path with an escaped quote is put in raw, and the quote in it
closes its literal. -/
theorem not_spelledBy_relocateWith :
    ¬∀ rules source fileName,
      ∀ pair ∈ (relocateWith rules source fileName).moves.zip
        (replacementsOf rules source fileName),
      let made := madeReplacements source (replacementsOf rules source fileName)
      let start := movedBy made pair.2.start
      ∃ quote, IsQuote quote ∧ CharAt source.toList pair.2.start quote ∧
        SpelledBy quote (relocateWith rules source fileName).text.toList start
          (start + byteLength pair.1.target.toList + 2) pair.1.target := by
  intro h
  have hEntry : (⟨.sideEffect, 1, "@aws-cdk/it's", "monocdk/it's"⟩, ⟨7, 23, "monocdk/it's"⟩) ∈
      (relocateWith .monocdk escapedQuote "a").moves.zip
        (replacementsOf .monocdk escapedQuote "a") := by
    decide +kernel
  have hMade : (⟨7, 23, "monocdk/it's"⟩ : Replacement) ∈
      madeReplacements escapedQuote (replacementsOf .monocdk escapedQuote "a") := by
    rw [madeReplacements_of_ordered (ordered_replacementsOf .monocdk escapedQuote "a")]
    decide +kernel
  have hText := h _ _ _ _ hEntry
  rw [relocateWith_text] at hText
  obtain ⟨-, quote, hQuote, hChar, -, hReads⟩ := (spelledBy_splice_iff
    (ordered_replacementsOf .monocdk escapedQuote "a") (List.of_mem_zip hEntry).2).1 ⟨hMade, hText⟩
  have hSingle : CharAt escapedQuote.toList 7 '\'' :=
    ⟨"import ".toList, "@aws-cdk/it\\'s';".toList, by decide +kernel⟩
  obtain rfl : quote = '\'' := hChar.unique hSingle
  have hNot : Body.read '\'' ("monocdk/it's".toList ++ ['\''])
      ≠ ⟨"monocdk/it's".toList, "monocdk/it's".toList, .closed, []⟩ := by
    decide +kernel
  exact hNot hReads

end Relocation

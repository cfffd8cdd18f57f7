import Mathlib.Data.List.Basic
import Relocation.Proofs.WellPlaced

/-!
# What a lexicon knows

A lexicon keeps one range for each start: of the ranges that start alike, the first one. Sorting by
the starts keeps the order of these ranges, and leaving out neighbours that start alike leaves the
first of them. So looking up a start in the lexicon finds what looking it up in the ranges as they
came would find.

## Results

* `Lexicon.isToken_ofRanges`: sorting plays no part in what is a token;
* `Lexicon.exists_lexeme_of_isToken`: a token of a text is one of its lexemes.
-/

namespace Relocation

open Text TypeScript

namespace TypeScript

variable {ranges : List ByteRange}

namespace ByteRange

/-- Sorting keeps the order of the ranges with one start. -/
theorem filter_byStart (ranges : List ByteRange) (start : Nat) :
    (byStart ranges).filter (fun r => r.start == start)
      = ranges.filter fun r => r.start == start := by
  have hAlike : (ranges.filter fun r => r.start == start).Pairwise fun l r =>
      decide (l.start ≤ r.start) = true := by
    rw [List.pairwise_filter]
    refine List.pairwise_of_forall fun l r hl hr => ?_
    rw [beq_iff_eq] at hl hr
    rw [decide_eq_true_eq]
    omega
  have hSub : (ranges.filter fun r => r.start == start).Sublist (byStart ranges) := by
    refine List.sublist_mergeSort ?_ ?_ hAlike List.filter_sublist
    · intro a b c hab hbc
      simp only [decide_eq_true_eq] at *
      omega
    · intro a b
      simp only [Bool.or_eq_true, decide_eq_true_eq]
      omega
  have hPerm : ((byStart ranges).filter fun r => r.start == start).Perm
      (ranges.filter fun r => r.start == start) :=
    (List.mergeSort_perm ranges _).filter _
  have hFilter := hSub.filter fun r => r.start == start
  rw [List.filter_filter] at hFilter
  simp only [Bool.and_self] at hFilter
  exact (hFilter.eq_of_length hPerm.length_eq.symm).symm

/-- The first range with a start is kept. -/
theorem find?_distinctStarts (ranges : List ByteRange) (start : Nat) :
    (distinctStarts ranges).find? (fun r => r.start == start)
      = ranges.find? fun r => r.start == start := by
  induction ranges with
  | nil => rfl
  | cons r rs ih =>
    rw [List.find?_cons, ← ih, distinctStarts]
    cases distinctStarts rs with
    | nil => rw [List.find?_cons]
    | cons s rest =>
      dsimp only
      split
      · rename_i hSame
        rw [List.find?_cons]
        cases hStart : r.start == start with
        | true => rfl
        | false => rw [List.find?_cons, hSame, hStart]
      · rw [List.find?_cons]

end ByteRange

namespace Lexicon

/-- A range is a token if and only if it is the first one of the lexicon with its start. -/
theorem isToken_iff {lexicon : Lexicon} {range : ByteRange} :
    lexicon.isToken range = true ↔
      (lexicon.ranges.find? fun token => token.start == range.start) = some range := by
  rw [isToken]
  cases hFound : lexicon.ranges.find? fun token => token.start == range.start with
  | none => simp
  | some token =>
    have hStart : token.start = range.start := by simpa using List.find?_some hFound
    rw [Option.some.injEq, beq_iff_eq]
    constructor
    · intro hStop
      cases token
      cases range
      simp_all
    · rintro rfl
      rfl

/-- A lexicon of ranges has the tokens that looking them up in the ranges as they come would
find. -/
theorem isToken_ofRanges (ranges : List ByteRange) (range : ByteRange) :
    (ofRanges ranges).isToken range = Lexicon.isToken ⟨ranges⟩ range := by
  have hLookup : ((ofRanges ranges).ranges.find? fun token => token.start == range.start)
      = ranges.find? fun token => token.start == range.start := by
    show (ByteRange.distinctStarts (ByteRange.byStart ranges)).find? _ = _
    rw [ByteRange.find?_distinctStarts, ← List.head?_filter, ByteRange.filter_byStart,
      List.head?_filter]
  rw [isToken, isToken, hLookup]

/-- The lexemes of a text as a lexicon, in the order in which they are read. -/
def unsorted (dialect : Dialect) (text : List Char) : Lexicon :=
  ⟨(lexemesOf dialect text).map fun lexeme => ⟨lexeme.start, lexeme.stop⟩⟩

theorem isToken_ofText (dialect : Dialect) (text : List Char) (range : ByteRange) :
    (ofText dialect text).isToken range = (unsorted dialect text).isToken range :=
  isToken_ofRanges _ range

/-- A token of a text is one of its lexemes. -/
theorem exists_lexeme_of_isToken {dialect : Dialect} {text : List Char} {start stop : Nat}
    (h : (ofText dialect text).isToken ⟨start, stop⟩ = true) :
    ∃ lexeme ∈ lexemesOf dialect text, lexeme.start = start ∧ lexeme.stop = stop := by
  rw [isToken_ofText, isToken_iff] at h
  obtain ⟨lexeme, hLexeme, hRange⟩ := List.mem_map.1 (List.mem_of_find?_eq_some h)
  obtain ⟨rfl, rfl⟩ := ByteRange.mk.inj hRange
  exact ⟨lexeme, hLexeme, rfl, rfl⟩

end Lexicon

end TypeScript

-- ---------------------------------------------------------------------------
-- Imports
-- ---------------------------------------------------------------------------

/-- The imports of a source are those that looking up their ranges among the lexemes as they come
would leave. -/
theorem importsOf_eq_unsorted (source fileName : String) :
    importsOf source fileName
      = ((recover? (fun text => itemsOf (.ofFileName fileName) (withoutMark text))
          source.toList).map fun recovered => ParsedSource.imports
            ⟨recovered.tree, recovered.working.calls, if recovered.working.text = source.toList
              then none
              else some (.unsorted (.ofFileName fileName) (withoutMark source.toList))⟩).getD [] := by
  unfold importsOf ParsedSource.ofSource?
  dsimp only
  cases recover? _ source.toList with
  | none => rfl
  | some recovered =>
    rw [Option.map_some, Option.map_some, Option.map_some, Option.getD_some, Option.getD_some]
    split
    · rfl
    · unfold ParsedSource.imports ParsedSource.isSourceToken
      simp only [Option.all_some, Lexicon.isToken_ofText]
      rfl

end Relocation

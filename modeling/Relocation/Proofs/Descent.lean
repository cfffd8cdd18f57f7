import Relocation.Proofs.Destructured

/-!
# Recovery comes to an end

A blanking takes away at least one character that is not blank, and brings none. That holds of a
binding clause, which starts with a word, and of a line, which is only blanked if it holds anything.
So whatever the parser reports, there are no more blankings than the source has characters that are
not blank, and no text comes up twice. The limit on the number of blankings cuts this sequence off,
but does not make it end: with a limit that is large enough, it plays no part.

The recovery gives the tree of the first text in the sequence that parses, if it comes to one. The
tokens of the source are kept if this text is not the source itself.

## Results

* `found_descends`: what is blanked for a fault takes characters away and brings none;
* `attempt?_filledCount`: from one attempt to a later one, a character goes at every step;
* `attempt?_injective`: no two attempts find the same text;
* `recover?_tree_iff`: the tree that recovery gives;
* `ParsedSource.isSome_lexicon_iff`: when the tokens of the source are kept;
* `recovery_descends`: all of this together.
-/

namespace Relocation

open Text

variable {Tree : Type} {parse : List Char → Except Nat Tree} {source text : List Char}
  {working next later : Working} {blanking : Blanking} {n m : Nat}

-- ---------------------------------------------------------------------------
-- Characters that are not blank
-- ---------------------------------------------------------------------------

/-- The number of characters of the text that are not blank. -/
def filledCount (cs : List Char) : Nat := cs.countP fun c => !isBlank c

theorem filledCount_append (a b : List Char) :
    filledCount (a ++ b) = filledCount a + filledCount b :=
  List.countP_append

theorem filledCount_eq_zero_iff {cs : List Char} : filledCount cs = 0 ↔ allBlank cs = true := by
  rw [filledCount, List.countP_eq_zero, allBlank, List.all_eq_true]
  simp

theorem filledCount_blanked (cs : List Char) : filledCount (blanked cs) = 0 := by
  rw [filledCount_eq_zero_iff, allBlank, List.all_eq_true]
  intro c hc
  exact isBlank_of_mem_blanked hc

/-- The later text has fewer characters that are not blank, and each of them stands where it stood.
-/
structure Descends (earlier later : List Char) : Prop where
  fewer : filledCount later < filledCount earlier
  kept : ∀ offset c, CharAt later offset c → isBlank c = false → CharAt earlier offset c

/-- What is blanked for a fault, a binding clause around it or else a line, takes characters away
and brings none. -/
theorem found_descends {fault offset : Nat}
    (h : (bindingClauseAt? text fault).or (filledLineAt? text offset) = some blanking) :
    Descends text (blanking.apply text) := by
  obtain ⟨kept, stretch, back, rfl, hStart, hStop, -, hFilled⟩ := found_spec h
  rw [Blanking.apply_append hStart hStop]
  constructor
  · have hPos : filledCount stretch ≠ 0 := by
      intro hZero
      rw [filledCount_eq_zero_iff.1 hZero] at hFilled
      contradiction
    simp only [filledCount_append, filledCount_blanked]
    omega
  · intro offset c hChar hc
    have hBlanks : Blanks (kept ++ (stretch ++ back)) (kept ++ (blanked stretch ++ back)) :=
      .append (.refl kept) (.append (.blanked_self stretch) (.refl back))
    exact (hBlanks.charAt hChar).resolve_right (by rw [hc]; exact Bool.false_ne_true)

theorem Working.step?_descends {fault : Nat} (h : working.step? fault = some next) :
    Descends working.text next.text := by
  obtain ⟨blanking, hFor, rfl⟩ := Option.map_eq_some_iff.1 h
  exact found_descends hFor

-- ---------------------------------------------------------------------------
-- The sequence of the texts
-- ---------------------------------------------------------------------------

theorem attempt?_zero : attempt? parse source 0 = some ⟨source, []⟩ := rfl

/-- From one attempt to a later one, a character that is not blank goes at every step. -/
theorem attempt?_filledCount (h : attempt? parse source n = some working)
    (hLater : attempt? parse source (n + m) = some later) :
    m + filledCount later.text ≤ filledCount working.text := by
  induction m generalizing later with
  | zero =>
    obtain rfl : working = later := Option.some.inj (h.symm.trans hLater)
    omega
  | succ m ih =>
    obtain ⟨earlier, fault, hEarlier, -, hStep⟩ := attempt?_succ_iff.1 hLater
    have hBefore := ih hEarlier
    have hFewer := (Working.step?_descends hStep).fewer
    omega

theorem attempt?_le (h : attempt? parse source n = some working) : n ≤ filledCount source := by
  rw [← Nat.zero_add n] at h
  have hCount : n + filledCount working.text ≤ filledCount source :=
    attempt?_filledCount attempt?_zero h
  omega

/-- A later attempt with the same text is the same attempt. -/
theorem attempt?_eq_zero (h : attempt? parse source n = some working)
    (hLater : attempt? parse source (n + m) = some later) (hText : working.text = later.text) :
    m = 0 := by
  have hCount := attempt?_filledCount h hLater
  rw [hText] at hCount
  omega

/-- No two attempts find the same text. -/
theorem attempt?_injective (h : attempt? parse source n = some working)
    (hLater : attempt? parse source m = some later) (hText : working.text = later.text) :
    n = m := by
  rcases Nat.le_total n m with hLe | hLe
  · obtain ⟨k, rfl⟩ := Nat.exists_eq_add_of_le hLe
    rw [attempt?_eq_zero h hLater hText, Nat.add_zero]
  · obtain ⟨k, rfl⟩ := Nat.exists_eq_add_of_le hLe
    rw [attempt?_eq_zero hLater h hText.symm, Nat.add_zero]

/-- In front of an attempt all others have failed. -/
theorem attempt?_fails (h : attempt? parse source n = some working) (hm : m < n) :
    ∃ earlier fault, attempt? parse source m = some earlier ∧
      parse earlier.text = .error fault := by
  obtain ⟨k, rfl⟩ := Nat.exists_eq_add_of_lt hm
  cases hNext : attempt? parse source (m + 1) with
  | none =>
    rw [Nat.add_right_comm, attempt?_add_eq_none hNext] at h
    contradiction
  | some next =>
    obtain ⟨earlier, fault, hEarlier, hFault, -⟩ := attempt?_succ_iff.1 hNext
    exact ⟨earlier, fault, hEarlier, hFault⟩

-- ---------------------------------------------------------------------------
-- The end of the sequence
-- ---------------------------------------------------------------------------

/-- With a limit as large as the number of characters that are not blank, or a larger one, the limit
plays no part. -/
theorem recoverWithin_of_le {limit : Nat} (h : filledCount source ≤ limit) :
    recoverWithin parse limit ⟨source, []⟩
      = recoverWithin parse (filledCount source) ⟨source, []⟩ := by
  refine Option.ext fun recovered => ?_
  simp only [recoverWithin_eq_some_iff attempt?_zero]
  constructor
  · rintro ⟨n, -, hLast, hParse⟩
    have hLe : n ≤ filledCount source := attempt?_le (Nat.zero_add n ▸ hLast)
    exact ⟨n, hLe, hLast, hParse⟩
  · rintro ⟨n, hn, hLast, hParse⟩
    exact ⟨n, Nat.le_trans hn h, hLast, hParse⟩

/-- The first text of the sequence that parses gives the tree, and the limit allows for it. -/
def FirstParsed (parse : List Char → Except Nat Tree) (source : List Char) (tree : Tree) : Prop :=
  ∃ n ≤ blankingLimit, ∃ working, attempt? parse source n = some working ∧
    parse working.text = .ok tree ∧
      ∀ m < n, ∃ earlier fault, attempt? parse source m = some earlier ∧
        parse earlier.text = .error fault

/-- Recovery gives a tree if it comes to a text that parses, and then the tree of the first one. -/
theorem recover?_tree_iff {tree : Tree} :
    (recover? parse source).map Recovered.tree = some tree ↔ FirstParsed parse source tree := by
  rw [Option.map_eq_some_iff]
  constructor
  · rintro ⟨recovered, hRecover, rfl⟩
    obtain ⟨n, hn, hLast, hParse⟩ := recover?_eq_some_iff.1 hRecover
    exact ⟨n, hn, recovered.working, hLast, hParse, fun m hm => attempt?_fails hLast hm⟩
  · rintro ⟨n, hn, working, hLast, hParse, -⟩
    exact ⟨⟨tree, working⟩, recover?_eq_some_iff.2 ⟨n, hn, hLast, hParse⟩, rfl⟩

/-- The recovery of a source comes to an end: its texts are all different and no more than the
source has characters that are not blank, its limit only cuts it off, and it gives the tree of the
first text that parses. -/
structure ComesToAnEnd (parse : List Char → Except Nat Tree) (source : List Char) : Prop where
  ends : ∀ n, filledCount source < n → attempt? parse source n = none
  distinct : ∀ n m working later, attempt? parse source n = some working →
    attempt? parse source m = some later → working.text = later.text → n = m
  unlimited : ∀ limit, filledCount source ≤ limit →
    recoverWithin parse limit ⟨source, []⟩ = recoverWithin parse (filledCount source) ⟨source, []⟩
  first : ∀ tree, (recover? parse source).map Recovered.tree = some tree ↔
    FirstParsed parse source tree

theorem comesToAnEnd (parse : List Char → Except Nat Tree) (source : List Char) :
    ComesToAnEnd parse source where
  ends := by
    intro n hn
    cases hLast : attempt? parse source n with
    | none => rfl
    | some working =>
      have hLe := attempt?_le hLast
      omega
  distinct := fun _ _ _ _ => attempt?_injective
  unlimited := fun _ => recoverWithin_of_le
  first := fun _ => recover?_tree_iff

-- ---------------------------------------------------------------------------
-- Parsed sources
-- ---------------------------------------------------------------------------

/-- A blanking is made if and only if the first attempt is not the last one. -/
theorem exists_blankingAfter_iff {tree : Tree} (h : attempt? parse source n = some working)
    (hParse : parse working.text = .ok tree) :
    (∃ m blanking, BlankingAfter parse source m blanking) ↔ n ≠ 0 := by
  constructor
  · rintro ⟨m, blanking, hMade⟩
    have hLt := hMade.lt_of_parses h hParse
    omega
  · intro hn
    rw [← Nat.zero_add n] at h
    obtain ⟨hZero, -⟩ | ⟨k, fault, next, -, hFault, hStep, -, -⟩ :=
      attempt?_add_cases attempt?_zero h
    · contradiction
    · obtain ⟨blanking, hFor, -⟩ := Option.map_eq_some_iff.1 hStep
      exact ⟨0, blanking, ⟨source, []⟩, fault, attempt?_zero, hFault, hFor⟩

/-- The items of a parsed source are those of the first text that parses. -/
theorem ParsedSource.items_ofSource?_iff {fileName : String} {items : List TypeScript.Item} :
    (ParsedSource.ofSource? source fileName).map ParsedSource.items = some items ↔
      FirstParsed (parseOf fileName) source items := by
  rw [← recover?_tree_iff, ParsedSource.ofSource?, Option.map_map]
  rfl

/-- The tokens of the source are kept if and only if a blanking has been made. -/
theorem ParsedSource.isSome_lexicon_iff {fileName : String} {parsed : ParsedSource}
    (h : ParsedSource.ofSource? source fileName = some parsed) :
    parsed.lexicon.isSome = true ↔
      ∃ n blanking, BlankingAfter (parseOf fileName) source n blanking := by
  obtain ⟨recovered, hRecover, rfl⟩ := Option.map_eq_some_iff.1 h
  obtain ⟨n, -, hLast, hParse⟩ := recover?_eq_some_iff.1 hRecover
  have hSame : recovered.working.text = source ↔ n = 0 := by
    constructor
    · intro hText
      exact attempt?_injective hLast attempt?_zero hText
    · rintro rfl
      rw [← Option.some.inj hLast]
  refine Iff.trans ?_ (exists_blankingAfter_iff hLast hParse).symm
  dsimp only
  by_cases hText : recovered.working.text = source
  · rw [if_pos hText]
    simp [hSame.1 hText]
  · rw [if_neg hText]
    simp [mt hSame.2 hText]

/-- **Recovery makes progress.** What is blanked for a fault takes characters away that are not
blank and brings none, for every text and wherever the fault is said to be. So with any parser the
texts of a recovery are all different, and there are no more of them than the source has such
characters: the recovery would come to an end without its limit, which only cuts it off. The tree
is that of the first text that parses, if the limit allows for it.

For sources this means that the items are those of the first text that parses, and that the tokens
of the source are kept if and only if a blanking has been made. There is no hypothesis. -/
theorem recovery_descends :
    (∀ (text : List Char) (fault offset : Nat) (blanking : Blanking),
      (bindingClauseAt? text fault).or (filledLineAt? text offset) = some blanking →
        Descends text (blanking.apply text)) ∧
    (∀ (Tree : Type) (parse : List Char → Except Nat Tree) (source : List Char),
      ComesToAnEnd parse source) ∧
    ∀ (source : List Char) (fileName : String),
      (∀ items, (ParsedSource.ofSource? source fileName).map ParsedSource.items = some items ↔
        FirstParsed (parseOf fileName) source items) ∧
      ∀ parsed, ParsedSource.ofSource? source fileName = some parsed →
        (parsed.lexicon.isSome = true ↔
          ∃ n blanking, BlankingAfter (parseOf fileName) source n blanking) := by
  refine ⟨?_, ?_, ?_⟩
  · intro text fault offset blanking hFound
    exact found_descends hFound
  · intro Tree parse source
    exact comesToAnEnd parse source
  · intro source fileName
    constructor
    · intro items
      exact ParsedSource.items_ofSource?_iff
    · intro parsed hParsed
      exact ParsedSource.isSome_lexicon_iff hParsed

/-- An import below a line that does not parse. -/
def closedAbove : List Char := ")\nimport 'x'".toList

/-- The line goes, and the tokens of the source are kept. -/
theorem descends_closedAbove :
    blankingFor? closedAbove 0 = some ⟨0, 1, none⟩ ∧
    Descends closedAbove (Blanking.apply ⟨0, 1, none⟩ closedAbove) ∧
    ∃ parsed, ParsedSource.ofSource? closedAbove "a" = some parsed ∧
      parsed.lexicon.isSome = true ∧
        ∃ n blanking, BlankingAfter (parseOf "a") closedAbove n blanking := by
  obtain ⟨hDescends, -, hParsed⟩ := recovery_descends
  have hFor : blankingFor? closedAbove 0 = some ⟨0, 1, none⟩ := by decide +kernel
  have hSome : ((ParsedSource.ofSource? closedAbove "a").any
      fun parsed => parsed.lexicon.isSome) = true := by decide +kernel
  obtain ⟨parsed, hOf, hKept⟩ := (Option.any_eq_true _ _).1 hSome
  exact ⟨hFor, hDescends _ _ _ _ hFor, parsed, hOf, hKept, ((hParsed _ _).2 _ hOf).1 hKept⟩

end Relocation

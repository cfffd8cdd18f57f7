import Relocation.Proofs.Checked.Recovery
import Relocation.Proofs.Text.Joins

/-!
# The line that a fault is put down to

A text is a row of lines, and each line runs up to its line feed. An offset between two characters
is held by one of them: a line feed belongs to the line that it ends, and the end of the text to the
last line. The search for a line that is not blank starts at the line that holds the offset and goes
up line by line. It ends, and what it finds is the last of these lines that holds anything.

## Results

* `mem_lines_iff`: which lines a text has;
* `exists_linesAround`: an offset is held by one line;
* `filledLineAt?_append`: the search for a line is a filter of the lines;
* `lineAt_eq_lastFilled`: what the search for a line finds, at any offset.
-/

namespace Relocation

open Text

variable {text : List Char} {offset : Nat}

-- ---------------------------------------------------------------------------
-- Lines of a text
-- ---------------------------------------------------------------------------

/-- A line of a text, without its line feed. -/
structure Line where
  start : Nat
  text : List Char
  deriving Repr, DecidableEq, Inhabited

namespace Line

/-- Where the line feed of the line is, or else the end of the text. -/
def stop (line : Line) : Nat := line.start + byteLength line.text

/-- Whether the line holds anything. -/
def isFilled (line : Line) : Bool := !allBlank line.text

/-- The blanking of the whole line. -/
def blanking (line : Line) : Blanking := ⟨line.start, line.stop, none⟩

end Line

/-- The lines that the segments make up, if the first of them starts at the offset. -/
def linesFrom (start : Nat) : List (List Char) → List Line
  | [] => []
  | segment :: rest => ⟨start, segment⟩ :: linesFrom (start + byteLength segment + 1) rest

/-- The lines of a text. -/
def lines (text : List Char) : List Line := linesFrom 0 (segments '\n' text)

theorem linesFrom_append (start : Nat) (list more : List (List Char)) :
    linesFrom start (list ++ more)
      = linesFrom start list ++ linesFrom (start + byteLength (terminated '\n' list)) more := by
  induction list generalizing start with
  | nil => rfl
  | cons segment list ih =>
    have hFeed : '\n'.utf8Size = 1 := rfl
    have hLength : start + byteLength (terminated '\n' (segment :: list))
        = start + byteLength segment + 1 + byteLength (terminated '\n' list) := by
      rw [terminated_cons, byteLength_append, byteLength_cons, hFeed]
      omega
    rw [List.cons_append, linesFrom, linesFrom, ih, hLength, List.cons_append]

/-- A text that goes on behind a line feed has the lines of both its parts. -/
theorem lines_append (above below : List Char) :
    lines (above ++ '\n' :: below)
      = lines above ++ linesFrom (byteLength above + 1) (segments '\n' below) := by
  have hFeed : byteLength ['\n'] = 1 := rfl
  rw [lines, segments_append, linesFrom_append, terminated_segments, byteLength_append, hFeed,
    Nat.zero_add]
  rfl

theorem lines_of_notMem (h : '\n' ∉ text) : lines text = [⟨0, text⟩] := by
  rw [lines, segments_of_notMem h]
  rfl

theorem le_start_of_mem_linesFrom {start : Nat} {list : List (List Char)} {line : Line}
    (h : line ∈ linesFrom start list) : start ≤ line.start := by
  induction list generalizing start with
  | nil => exact absurd h List.not_mem_nil
  | cons segment list ih =>
    rcases List.mem_cons.1 h with rfl | hRest
    · exact Nat.le_refl _
    · have := ih hRest
      omega

/-- Lines stand one behind the other, with a line feed between them. -/
theorem pairwise_linesFrom (start : Nat) (list : List (List Char)) :
    (linesFrom start list).Pairwise fun line next => line.stop < next.start := by
  induction list generalizing start with
  | nil => exact .nil
  | cons segment list ih =>
    refine List.pairwise_cons.2 ⟨fun next hNext => ?_, ih _⟩
    have := le_start_of_mem_linesFrom hNext
    show start + byteLength segment < next.start
    omega

theorem mem_linesFrom_iff {start : Nat} {list : List (List Char)} {line : Line} :
    line ∈ linesFrom start list ↔ ∃ front back, list = front ++ line.text :: back ∧
      line.start = start + byteLength (terminated '\n' front) := by
  constructor
  · intro h
    induction list generalizing start with
    | nil => exact absurd h List.not_mem_nil
    | cons segment list ih =>
      rcases List.mem_cons.1 h with rfl | hRest
      · exact ⟨[], list, rfl, rfl⟩
      · obtain ⟨front, back, rfl, hStart⟩ := ih hRest
        have hFeed : '\n'.utf8Size = 1 := rfl
        refine ⟨segment :: front, back, rfl, ?_⟩
        rw [hStart, terminated_cons, byteLength_append, byteLength_cons, hFeed]
        omega
  · rintro ⟨front, back, rfl, hStart⟩
    rw [linesFrom_append, ← hStart]
    exact List.mem_append_right _ List.mem_cons_self

/-- A line of a text stands between two line feeds, or where the text starts or ends, and holds no
line feed itself. -/
theorem mem_lines_iff {line : Line} :
    line ∈ lines text ↔ ∃ kept back, text = kept ++ (line.text ++ back) ∧
      line.start = byteLength kept ∧ IsLine kept back ∧ '\n' ∉ line.text := by
  rw [lines, mem_linesFrom_iff]
  constructor
  · rintro ⟨front, back, hSegments, hStart⟩
    have hParts := eq_terminated_append hSegments (List.cons_ne_nil _ _)
    have hMem : line.text ∈ segments '\n' text := by
      rw [hSegments]
      exact List.mem_append_right _ List.mem_cons_self
    have hFeed : '\n' ∉ line.text := separator_notMem_of_mem_segments hMem
    -- in front of a segment there is nothing, or a line feed
    have hAbove : ((terminated '\n' front).getLast?.all (· = '\n')) = true := by
      rcases terminated_eq_nil_or '\n' front with hNil | hLast
      · rw [hNil]
        rfl
      · rw [hLast]
        rfl
    rw [Nat.zero_add] at hStart
    cases back with
    | nil =>
      exact ⟨_, [], hParts.trans (by rw [joined, List.append_nil]), hStart, ⟨hAbove, rfl⟩, hFeed⟩
    | cons next rest => exact ⟨_, _, hParts, hStart, ⟨hAbove, rfl⟩, hFeed⟩
  · rintro ⟨kept, back, rfl, hStart, ⟨hAbove, hBelow⟩, hFeed⟩
    -- behind the line there is nothing, or a line feed, so that it is a segment
    have hBack : ∃ rest, segments '\n' (line.text ++ back) = line.text :: rest := by
      cases back with
      | nil => exact ⟨[], by rw [List.append_nil, segments_of_notMem hFeed]⟩
      | cons c back =>
        obtain rfl : c = '\n' := of_decide_eq_true hBelow
        exact ⟨_, by rw [segments_append, segments_of_notMem hFeed]; rfl⟩
    obtain ⟨rest, hRest⟩ := hBack
    rcases List.eq_nil_or_concat kept with rfl | ⟨above, c, rfl⟩
    · exact ⟨[], rest, hRest, hStart⟩
    · rw [List.concat_eq_append] at hStart hAbove ⊢
      rw [List.getLast?_concat] at hAbove
      obtain rfl : c = '\n' := of_decide_eq_true hAbove
      refine ⟨segments '\n' above, rest, ?_, ?_⟩
      · rw [List.append_assoc, List.singleton_append, segments_append, hRest]
      · rw [hStart, terminated_segments, Nat.zero_add]

-- ---------------------------------------------------------------------------
-- The line that holds an offset
-- ---------------------------------------------------------------------------

/-- The lines of a text around an offset. An offset in front of a line feed is held by the line that
the line feed ends. -/
structure LinesAround (text : List Char) (offset : Nat) (above : List Line) (here : Line)
    (below : List Line) : Prop where
  parts : lines text = above ++ here :: below
  starts : here.start ≤ offset
  stops : offset ≤ here.stop
  above_stop : ∀ line ∈ above, line.stop < offset
  below_start : ∀ line ∈ below, offset < line.start

/-- The lines down to the one that holds the offset are those that start no later than it. -/
theorem LinesAround.upTo {above below : List Line} {here : Line}
    (h : LinesAround text offset above here below) :
    above ++ [here] = (lines text).filter fun line => line.start ≤ offset := by
  have hAbove : ∀ line ∈ above, decide (line.start ≤ offset) = true := fun line hMem => by
    have := h.above_stop line hMem
    rw [Line.stop] at this
    exact decide_eq_true (by omega)
  have hBelow : ∀ line ∈ below, ¬decide (line.start ≤ offset) = true := fun line hMem hLe => by
    have := h.below_start line hMem
    have := of_decide_eq_true hLe
    omega
  rw [h.parts, List.filter_append, List.filter_cons, if_pos (decide_eq_true h.starts),
    List.filter_eq_self.2 hAbove, List.filter_eq_nil_iff.2 hBelow]

/-- The line that a front part of the text ends in starts behind the last line feed. -/
theorem lines_of_split {before above head more : List Char}
    (h : splitAtLast? ['\n'] before = some (above, head)) (hMore : '\n' ∉ more) :
    lines (before ++ more) = lines above ++ [⟨byteLength above + 1, head ++ more⟩] := by
  have hLine : '\n' ∉ head ++ more := List.not_mem_append (not_mem_of_splitAtLast? h) hMore
  rw [eq_append_of_splitAtLast? h, List.append_assoc, List.append_assoc, List.singleton_append,
    lines_append, segments_of_notMem hLine]
  rfl

/-- The lines up to the one that a front part of the text ends in. -/
theorem lines_upTo (before : List Char) {more : List Char} (hMore : '\n' ∉ more) :
    ∃ above here, lines (before ++ more) = above ++ [here] ∧
      here.start ≤ byteLength before ∧ here.stop = byteLength (before ++ more) := by
  cases hSplit : splitAtLast? ['\n'] before with
  | some parts =>
    obtain ⟨above, head⟩ := parts
    have hFeed : '\n'.utf8Size = 1 := rfl
    have hLength : byteLength before = byteLength above + 1 + byteLength head := by
      rw [eq_append_of_splitAtLast? hSplit, byteLength_append, byteLength_append, byteLength_cons,
        byteLength_nil, hFeed]
    refine ⟨_, _, lines_of_split hSplit hMore, ?_, ?_⟩
    · show byteLength above + 1 ≤ byteLength before
      omega
    · show byteLength above + 1 + byteLength (head ++ more) = byteLength (before ++ more)
      rw [byteLength_append, byteLength_append]
      omega
  | none =>
    have hLine := List.not_mem_append (not_mem_of_splitAtLast?_eq_none hSplit) hMore
    exact ⟨[], ⟨0, before ++ more⟩, lines_of_notMem hLine, Nat.zero_le _, Nat.zero_add _⟩

/-- The lines from the first line feed on lie below a text. -/
theorem exists_lines_below (before after : List Char) :
    ∃ below, lines (before ++ after) = lines (before ++ after.takeWhile (· != '\n')) ++ below ∧
      ∀ line ∈ below, byteLength (before ++ after.takeWhile (· != '\n')) < line.start := by
  have hParts : before ++ after
      = (before ++ after.takeWhile (· != '\n')) ++ after.dropWhile (· != '\n') := by
    rw [List.append_assoc, List.takeWhile_append_dropWhile]
  rcases dropWhile_ne_cases '\n' after with ⟨hNil, -⟩ | ⟨rest, hRest⟩
  · rw [hNil, List.append_nil] at hParts
    exact ⟨[], by rw [hParts, List.append_nil], fun _ hMem => absurd hMem List.not_mem_nil⟩
  · rw [hRest] at hParts
    exact ⟨_, by rw [hParts, lines_append], fun line hMem => le_start_of_mem_linesFrom hMem⟩

/-- An offset between two characters is held by one line. The search for a line that is not blank
looks at this line and at those above it. -/
theorem exists_linesAround (before after : List Char) :
    ∃ above here below,
      LinesAround (before ++ after) (byteLength before) above here below ∧
        lines (before ++ after.takeWhile (· != '\n')) = above ++ [here] := by
  obtain ⟨above, here, hUpTo, hStart, hStop⟩ :=
    lines_upTo before (notMem_takeWhile_ne '\n' after)
  obtain ⟨below, hParts, hBelow⟩ := exists_lines_below before after
  have hLength := byteLength_append before (after.takeWhile (· != '\n'))
  rw [hUpTo, List.append_assoc, List.singleton_append] at hParts
  have hOrder : (above ++ here :: below).Pairwise fun line next => line.stop < next.start :=
    hParts ▸ pairwise_linesFrom 0 _
  have hAbove := (List.pairwise_append.1 hOrder).2.2
  refine ⟨above, here, below, ⟨hParts, hStart, by omega, fun line hMem => ?_, fun line hMem => ?_⟩,
    hUpTo⟩
  · have := hAbove line hMem here List.mem_cons_self
    omega
  · have := hBelow line hMem
    omega

-- ---------------------------------------------------------------------------
-- The search for a line
-- ---------------------------------------------------------------------------

/-- The last of the lines that holds anything. -/
def lastFilled? (list : List Line) : Option Line := (list.filter Line.isFilled).getLast?

theorem lastFilled?_concat (list : List Line) (line : Line) :
    lastFilled? (list ++ [line]) = if allBlank line.text then lastFilled? list else some line := by
  rw [lastFilled?, List.filter_append, List.filter_cons, List.filter_nil, Line.isFilled]
  cases allBlank line.text with
  | true => exact congrArg List.getLast? (List.append_nil _)
  | false => exact List.getLast?_concat

theorem lastFilled?_eq_none_iff {list : List Line} :
    lastFilled? list = none ↔ ∀ line ∈ list, allBlank line.text = true := by
  simp only [lastFilled?, List.getLast?_eq_none_iff, List.filter_eq_nil_iff, Line.isFilled,
    Bool.not_eq_true', Bool.not_eq_false]

/-- The search goes up from line to line until one holds anything: of the lines up to the cut it
finds the last such line. -/
theorem filledLine?_eq_lastFilled (before after : List Char) :
    filledLine? before after
      = (lastFilled? (lines (before ++ after.takeWhile (· != '\n')))).map Line.blanking := by
  induction hLength : before.length using Nat.strongRecOn generalizing before after with
  | _ n ih =>
  subst hLength
  have hFeed : '\n' ∉ after.takeWhile (· != '\n') := notMem_takeWhile_ne '\n' after
  cases hSplit : splitAtLast? ['\n'] before with
  | some parts =>
    obtain ⟨above, head⟩ := parts
    rw [filledLine?_of_some hSplit, lines_of_split hSplit hFeed, lastFilled?_concat]
    split
    · -- the line above ends with the line feed, so nothing is put behind it
      have hLess : above.length < before.length := by
        rw [eq_append_of_splitAtLast? hSplit]
        simp
      have hAbove := ih above.length hLess above ['\n'] rfl
      rw [List.takeWhile_cons_of_neg (by decide), List.append_nil] at hAbove
      exact hAbove
    · rfl
  | none =>
    have hLine := List.not_mem_append (not_mem_of_splitAtLast?_eq_none hSplit) hFeed
    have hConcat := lastFilled?_concat [] ⟨0, before ++ after.takeWhile (· != '\n')⟩
    rw [List.nil_append] at hConcat
    rw [filledLine?_of_none hSplit, lines_of_notMem hLine, hConcat]
    split
    · rfl
    · rw [Option.map_some, Line.blanking, Line.stop, Nat.zero_add]

theorem filledLineAt?_append (before after : List Char) :
    filledLineAt? (before ++ after) (byteLength before)
      = (lastFilled? (lines (before ++ after.takeWhile (· != '\n')))).map Line.blanking := by
  rw [filledLineAt?, cutAt?_append]
  exact filledLine?_eq_lastFilled before after

/-- **The filled line above an offset.** The search for a line, made of operations that can fail,
comes to an end. It finds the last line that is not blank among the line that holds the offset and
those above it, without its line feed, and it finds nothing if and only if all of them are blank.
The lines are those of the text cut at its line feeds, and an offset in front of a line feed is
held by the line that the line feed ends.

`h` says that the offset is between two characters or at one of the ends of the text. -/
theorem lineAt_eq_lastFilled (h : isBoundary text offset = true) :
    ∃ above here below, LinesAround text offset above here below ∧
      Checked.lineAt text offset
        = .ok ((lastFilled? (above ++ [here])).map Line.blanking) ∧
      filledLineAt? text offset = (lastFilled? (above ++ [here])).map Line.blanking ∧
      (filledLineAt? text offset = none ↔ ∀ line ∈ above ++ [here], allBlank line.text = true) := by
  obtain ⟨before, after, rfl, rfl⟩ := isBoundary_iff.1 h
  obtain ⟨above, here, below, hAround, hUpTo⟩ := exists_linesAround before after
  have hFound := filledLineAt?_append before after
  rw [hUpTo] at hFound
  refine ⟨above, here, below, hAround, ?_, hFound, ?_⟩
  · rw [Checked.lineAt_eq_ok, hFound]
  · rw [hFound, Option.map_eq_none_iff, lastFilled?_eq_none_iff]

/-- Below the line that is not blank come an empty line and a blank one, and the text ends with a
line feed. -/
def blankEnding : List Char := "a\nbroken\n\n   \n".toList

/-- From the end of the text the search goes up three lines, and from a line feed none. -/
theorem lineAt_blankEnding :
    isBoundary blankEnding 14 = true ∧ Checked.lineAt blankEnding 14 = .ok (some ⟨2, 8, none⟩) ∧
      isBoundary blankEnding 8 = true ∧ Checked.lineAt blankEnding 8 = .ok (some ⟨2, 8, none⟩) := by
  have hEnd : isBoundary blankEnding 14 = true := by decide
  have hFeed : isBoundary blankEnding 8 = true := by decide
  obtain ⟨above, here, below, hAround, hFound, -⟩ := lineAt_eq_lastFilled hEnd
  obtain ⟨above', here', below', hAround', hFound', -⟩ := lineAt_eq_lastFilled hFeed
  refine ⟨hEnd, ?_, hFeed, ?_⟩
  · rw [hFound, hAround.upTo]
    decide
  · rw [hFound', hAround'.upTo]
    decide

end Relocation

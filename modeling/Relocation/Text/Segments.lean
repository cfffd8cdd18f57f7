/-!
# Texts in segments

A separator cuts a text into segments. There is always one more segment than there are
separators, so the empty text is one empty segment, and nothing is lost: joining the segments
gives the text back.

## Results

* `joined_segments`: the segments make up the text;
* `separator_notMem_of_mem_segments`: no segment holds the separator.
-/

namespace Relocation.Text

/-- Puts a character in front of the first segment. -/
def consFirst (c : Char) : List (List Char) → List (List Char)
  | [] => [[c]]
  | segment :: rest => (c :: segment) :: rest

/-- The segments of a text. -/
def segments (separator : Char) : List Char → List (List Char)
  | [] => [[]]
  | c :: cs =>
    if c = separator then [] :: segments separator cs else consFirst c (segments separator cs)

/-- Segments with separators between them. -/
def joined (separator : Char) : List (List Char) → List Char
  | [] => []
  | [segment] => segment
  | segment :: rest => segment ++ separator :: joined separator rest

variable {separator c : Char} {segment : List Char} {rest : List (List Char)}

/-- A separator ends the first segment. -/
theorem segments_cons_self (separator : Char) (cs : List Char) :
    segments separator (separator :: cs) = [] :: segments separator cs := if_pos rfl

/-- Any other character belongs to the first segment. -/
theorem segments_cons_of_ne (h : c ≠ separator) (cs : List Char) :
    segments separator (c :: cs) = consFirst c (segments separator cs) := if_neg h

theorem consFirst_ne_nil (c : Char) (list : List (List Char)) : consFirst c list ≠ [] := by
  cases list with
  | nil => exact List.cons_ne_nil _ _
  | cons segment rest => exact List.cons_ne_nil _ _

theorem segments_ne_nil (separator : Char) (cs : List Char) : segments separator cs ≠ [] := by
  cases cs with
  | nil => exact List.cons_ne_nil _ _
  | cons c cs =>
    by_cases h : c = separator
    · subst h
      rw [segments_cons_self]
      exact List.cons_ne_nil _ _
    · rw [segments_cons_of_ne h]
      exact consFirst_ne_nil c _

/-- Behind a segment that is not the last one a separator stands. -/
theorem joined_cons (separator : Char) (segment : List Char) (hRest : rest ≠ []) :
    joined separator (segment :: rest) = segment ++ separator :: joined separator rest := by
  cases rest with
  | nil => exact absurd rfl hRest
  | cons next rest => rfl

theorem joined_consFirst (separator c : Char) (list : List (List Char)) :
    joined separator (consFirst c list) = c :: joined separator list := by
  cases list with
  | nil => rfl
  | cons segment rest =>
    cases rest with
    | nil => rfl
    | cons next rest => rfl

/-- The segments make up the text. -/
theorem joined_segments (separator : Char) (cs : List Char) :
    joined separator (segments separator cs) = cs := by
  induction cs with
  | nil => rfl
  | cons c cs ih =>
    by_cases h : c = separator
    · subst h
      rw [segments_cons_self, joined_cons _ _ (segments_ne_nil c cs), ih, List.nil_append]
    · rw [segments_cons_of_ne h, joined_consFirst, ih]

/-- No segment holds the separator. -/
theorem separator_notMem_of_mem_segments {cs : List Char} (h : segment ∈ segments separator cs) :
    separator ∉ segment := by
  induction cs generalizing segment with
  | nil =>
    obtain rfl := List.mem_singleton.1 h
    exact List.not_mem_nil
  | cons c cs ih =>
    by_cases hHere : c = separator
    · subst hHere
      rw [segments_cons_self] at h
      rcases List.mem_cons.1 h with rfl | hMem
      · exact List.not_mem_nil
      · exact ih hMem
    · rw [segments_cons_of_ne hHere] at h
      obtain ⟨first, rest, hSegments⟩ := List.exists_cons_of_ne_nil (segments_ne_nil separator cs)
      rw [hSegments] at h ih
      rcases List.mem_cons.1 h with rfl | hMem
      · rw [List.mem_cons, not_or]
        exact ⟨Ne.symm hHere, ih List.mem_cons_self⟩
      · exact ih (List.mem_cons_of_mem _ hMem)

end Relocation.Text

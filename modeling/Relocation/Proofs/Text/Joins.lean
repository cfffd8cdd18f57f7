import Relocation.Text.Segments

/-!
# Segments put together

Cutting a text into segments and putting segments together undo each other, as long as no segment
holds the separator. A text that goes on behind a separator has the segments of both its parts. So
segments in front can be told apart from what follows them, if a separator stands behind each of
them.

## Results

* `segments_append`: the segments of two texts with a separator between them;
* `segments_joined`: segments put together are found again;
* `segments_terminated`, `joined_append`: segments in front of others.
-/

namespace Relocation.Text

variable {separator : Char} {cs : List Char} {list more : List (List Char)}

/-- Segments with a separator behind each of them. -/
def terminated (separator : Char) (list : List (List Char)) : List Char :=
  list.flatMap fun segment => segment ++ [separator]

theorem terminated_cons (separator : Char) (segment : List Char) (list : List (List Char)) :
    terminated separator (segment :: list) = segment ++ separator :: terminated separator list :=
  (List.append_cons ..).symm

theorem terminated_append (separator : Char) (list more : List (List Char)) :
    terminated separator (list ++ more) = terminated separator list ++ terminated separator more :=
  List.flatMap_append

theorem terminated_eq_nil_or (separator : Char) (list : List (List Char)) :
    terminated separator list = [] ∨ (terminated separator list).getLast? = some separator := by
  rcases List.eq_nil_or_concat list with rfl | ⟨front, last, rfl⟩
  · exact .inl rfl
  · right
    rw [List.concat_eq_append, terminated_append, terminated_cons]
    show (terminated separator front ++ (last ++ [separator])).getLast? = _
    rw [← List.append_assoc]
    exact List.getLast?_concat

/-- A text without separators is one segment. -/
theorem segments_of_notMem (h : separator ∉ cs) : segments separator cs = [cs] := by
  induction cs with
  | nil => rfl
  | cons c cs ih =>
    obtain ⟨hHere, hRest⟩ := not_or.1 (mt List.mem_cons.2 h)
    rw [segments_cons_of_ne (Ne.symm hHere), ih hRest]
    rfl

/-- A text that goes on behind a separator has the segments of both its parts. -/
theorem segments_append (separator : Char) (cs more : List Char) :
    segments separator (cs ++ separator :: more)
      = segments separator cs ++ segments separator more := by
  induction cs with
  | nil => exact segments_cons_self separator more
  | cons c cs ih =>
    rw [List.cons_append]
    by_cases h : c = separator
    · subst h
      rw [segments_cons_self, segments_cons_self, ih]
      rfl
    · obtain ⟨first, rest, hSegments⟩ := List.exists_cons_of_ne_nil (segments_ne_nil separator cs)
      rw [segments_cons_of_ne h, segments_cons_of_ne h, ih, hSegments]
      rfl

/-- Segments in front, each with a separator behind it, are found again. -/
theorem segments_terminated (h : ∀ segment ∈ list, separator ∉ segment) (cs : List Char) :
    segments separator (terminated separator list ++ cs) = list ++ segments separator cs := by
  induction list with
  | nil => rfl
  | cons segment list ih =>
    rw [terminated_cons, List.append_assoc, List.cons_append, segments_append,
      segments_of_notMem (h segment List.mem_cons_self),
      ih fun other hMem => h other (List.mem_cons_of_mem _ hMem)]
    rfl

/-- Segments in front of others have a separator behind each of them. -/
theorem joined_append (separator : Char) (list : List (List Char)) (h : more ≠ []) :
    joined separator (list ++ more) = terminated separator list ++ joined separator more := by
  induction list with
  | nil => rfl
  | cons segment list ih =>
    obtain ⟨next, rest, hRest⟩ :=
      List.exists_cons_of_ne_nil (List.append_ne_nil_of_right_ne_nil list h)
    rw [List.cons_append, terminated_cons, List.append_assoc, List.cons_append, ← ih, hRest]
    rfl

/-- With a separator behind each of them the segments make up the text and one more separator. -/
theorem terminated_segments (separator : Char) (cs : List Char) :
    terminated separator (segments separator cs) = cs ++ [separator] := by
  have hParts : segments separator (cs ++ [separator]) = segments separator cs ++ [[]] :=
    segments_append separator cs []
  have hJoined := joined_segments separator (cs ++ [separator])
  rw [hParts, joined_append separator _ (List.cons_ne_nil _ _)] at hJoined
  exact (List.append_nil _).symm.trans hJoined

theorem mem_of_mem_segments {c : Char} {segment : List Char} (h : segment ∈ segments separator cs)
    (hc : c ∈ segment) : c ∈ cs := by
  have hMem : c ∈ terminated separator (segments separator cs) :=
    List.mem_flatMap.2 ⟨segment, h, List.mem_append_left _ hc⟩
  rw [terminated_segments] at hMem
  refine (List.mem_append.1 hMem).resolve_right fun hLast => ?_
  rw [List.mem_singleton.1 hLast] at hc
  exact separator_notMem_of_mem_segments h hc

theorem mem_of_mem_terminated {c : Char} (h : c ∈ terminated separator list) :
    c = separator ∨ ∃ segment ∈ list, c ∈ segment := by
  obtain ⟨segment, hSegment, hc⟩ := List.mem_flatMap.1 h
  rcases List.mem_append.1 hc with hHere | hLast
  · exact .inr ⟨segment, hSegment, hHere⟩
  · exact .inl (List.mem_singleton.1 hLast)

theorem mem_of_mem_joined {c : Char} (h : c ∈ joined separator list) :
    c = separator ∨ ∃ segment ∈ list, c ∈ segment := by
  rcases List.eq_nil_or_concat list with rfl | ⟨front, last, rfl⟩
  · exact absurd h List.not_mem_nil
  rw [List.concat_eq_append] at h ⊢
  rw [joined_append separator front (List.cons_ne_nil last [])] at h
  rcases List.mem_append.1 h with hFront | hLast
  · rcases mem_of_mem_terminated hFront with hSame | ⟨segment, hMem, hc⟩
    · exact .inl hSame
    · exact .inr ⟨segment, List.mem_append_left _ hMem, hc⟩
  · exact .inr ⟨last, List.mem_append_right _ List.mem_cons_self, hLast⟩

theorem joined_ne_nil (hSome : list ≠ []) (hFilled : list ≠ [[]]) : joined separator list ≠ [] := by
  cases list with
  | nil => exact absurd rfl hSome
  | cons first rest =>
    cases rest with
    | nil => exact fun hNil => hFilled (congrArg (fun segment => [segment]) hNil)
    | cons => exact List.append_ne_nil_of_right_ne_nil _ (List.cons_ne_nil _ _)

/-- Segments put together are found again. -/
theorem segments_joined (hSome : list ≠ []) (h : ∀ segment ∈ list, separator ∉ segment) :
    segments separator (joined separator list) = list := by
  obtain ⟨front, last, rfl⟩ := List.eq_nil_or_concat list |>.resolve_left hSome
  rw [List.concat_eq_append] at h ⊢
  rw [joined_append separator front (List.cons_ne_nil last []),
    segments_terminated fun segment hMem => h segment (List.mem_append_left _ hMem)]
  exact congrArg (front ++ ·) (segments_of_notMem (h last (by simp)))

/-- A text starts with segments and a separator behind each of them, if they are the first of its
segments and not all of them. -/
theorem eq_terminated_append (hSegments : segments separator cs = list ++ more)
    (hMore : more ≠ []) : cs = terminated separator list ++ joined separator more := by
  rw [← joined_append separator list hMore, ← hSegments, joined_segments]

end Relocation.Text

import Relocation.Proofs.FileNames

/-!
# Ways without links

Where no link is on the way, segments are followed one by one, and each of them does one of three
things: it stays where it is, it goes up, or it goes on to what it names. So what the segments lead
to starts with names of the location that they start from, and every other name is one of the
segments. It makes no difference how many links could have been followed.

## Results

* `FileTree.exists_step`: what a segment does where no link is on the way;
* `FileTree.exists_between`: where the first of the segments lead;
* `FileTree.exists_dropLast_of_follow`: the names of the directories on the way to a file.
-/

namespace Relocation.FileTree

variable {tree : FileTree} {location from_ : Location} {segment : List Char}
  {front behind rest : List (List Char)}

/-- Where no link is on the way a segment stays or goes up, or it goes on by its name. -/
theorem exists_step (h : tree.follow 0 from_ (segment :: rest) = .ok location) :
    ∃ next, (∀ links more, tree.follow links from_ (segment :: more)
        = tree.follow links next more) ∧
      (segment ∈ [[], ['.'], ['.', '.']] ∧ (next = from_ ∨ next = from_.dropLast) ∨
        next = from_ ++ [segment]) := by
  obtain ⟨entries, hAt⟩ := exists_directory_of_follow h
  by_cases hStays : segment = [] ∨ segment = ['.']
  · refine ⟨from_, fun links more => ?_, .inl ⟨by rcases hStays with rfl | rfl <;> simp, .inl rfl⟩⟩
    rw [follow, hAt]
    exact if_pos hStays
  by_cases hUp : segment = ['.', '.']
  · refine ⟨from_.dropLast, fun links more => ?_, .inl ⟨by simp [hUp], .inr rfl⟩⟩
    rw [hUp, follow_up hAt]
  rw [follow, hAt] at h
  simp only [hStays, hUp, if_false] at h
  by_cases hLong : nameLimit < Text.byteLength segment
  · rw [if_pos hLong] at h
    contradiction
  rw [if_neg hLong] at h
  cases hFind : entries.find? segment with
  | none =>
    rw [hFind] at h
    contradiction
  | some node =>
    refine ⟨from_ ++ [segment], fun links more => ?_, .inr rfl⟩
    rw [follow, hAt]
    simp only [hStays, hUp, hLong, hFind, if_false]
    cases node with
    | link target =>
      rw [hFind] at h
      contradiction
    | file | directory => rfl

/-- Where no link is on the way the first of the segments lead to a place whatever follows them. The
place starts with names of the location that they start from, and all other names are segments. -/
theorem exists_between (h : tree.follow 0 from_ (front ++ behind) = .ok location) :
    ∃ between, (∀ links more, tree.follow links from_ (front ++ more)
        = tree.follow links between more) ∧
      ∃ n names, between = from_.take n ++ names ∧ names ⊆ front := by
  induction front generalizing from_ with
  | nil =>
    refine ⟨from_, fun _ _ => rfl, from_.length, [], ?_, List.nil_subset _⟩
    rw [List.take_length, List.append_nil]
  | cons segment front ih =>
    obtain ⟨next, hNext, hStep⟩ := exists_step h
    rw [List.cons_append, hNext] at h
    obtain ⟨between, hBetween, n, names, hNames, hSubset⟩ := ih h
    refine ⟨between, fun links more => (hNext links _).trans (hBetween links more), ?_⟩
    rcases hStep with ⟨-, rfl | rfl⟩ | rfl
    · exact ⟨n, names, hNames, List.subset_cons_of_subset _ hSubset⟩
    · refine ⟨min n (from_.length - 1), names, ?_, List.subset_cons_of_subset _ hSubset⟩
      rw [hNames, List.dropLast_eq_take, List.take_take]
    · rw [List.take_append] at hNames
      refine ⟨n, [segment].take (n - from_.length) ++ names, ?_, ?_⟩
      · rw [hNames, List.append_assoc]
      · refine List.append_subset.2 ⟨fun name hMem => ?_, List.subset_cons_of_subset _ hSubset⟩
        rw [List.mem_singleton.1 (List.mem_of_mem_take hMem)]
        exact List.mem_cons_self

/-- An empty segment at the end makes no difference to where segments lead. -/
theorem eq_of_follow {links : Nat} {between : Location} {segments : List (List Char)}
    (h : tree.follow links from_ segments = .ok location)
    (hSegments : segments = front ∨ segments = front ++ [[]])
    (hBetween : ∀ more, tree.follow links from_ (front ++ more) = tree.follow links between more) :
    between = location := by
  rcases hSegments with rfl | rfl
  · rw [← List.append_nil segments, hBetween, follow_nil] at h
    exact Except.ok.inj h
  · rw [hBetween] at h
    obtain ⟨entries, hAt⟩ := exists_directory_of_follow h
    rw [follow_empty hAt] at h
    exact Except.ok.inj h

/-- Where no link is on the way and a name is the last segment, the directory that it is in starts
with names of the location that the segments start from, and all other names are segments. -/
theorem exists_dropLast_of_follow (h : tree.follow 0 from_ (front ++ [segment]) = .ok location)
    (hName : IsNamed segment) :
    ∃ n names, location.dropLast = from_.take n ++ names ∧ names ⊆ front := by
  obtain ⟨between, hBetween, hNames⟩ := exists_between h
  rw [hBetween] at h
  obtain ⟨next, hNext, hStep⟩ := exists_step h
  rw [hNext, follow_nil] at h
  rcases hStep with ⟨hMem, -⟩ | hLast
  · exact absurd hMem hName.1
  · rwa [← Except.ok.inj h, hLast, List.dropLast_concat]

end Relocation.FileTree

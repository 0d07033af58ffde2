/-
Directories above a directory.

A path is followed segment by segment, and every step starts from a directory. So if a path leads to a directory,
then so do the paths above it, wherever its `..` have led (`isDirectory_of_mem_ancestors`), and a name joined to it
leads to what stands at the address (`find?_join_of_isDirectory`), unless name or text are too long.
-/
import LineEndings.Proofs.Path.Detours
import LineEndings.Proofs.Tree.Locating

namespace LineEndings.Tree

variable {tree : Tree} {path above : Path} {here there : Address} {front back segments : List (List Char)}

/-! ### Steps -/

theorem exists_of_foldlM_step_append (h : (front ++ back).foldlM tree.step here = .ok there) :
    ∃ middle, front.foldlM tree.step here = .ok middle ∧ back.foldlM tree.step middle = .ok there := by
  rw [List.foldlM_append] at h
  cases hfront : front.foldlM tree.step here with
  | error fault =>
    rw [hfront] at h
    cases h
  | ok middle =>
    rw [hfront] at h
    exact ⟨middle, rfl, h⟩

/-- Steps that lead to a directory start from one, none or many. -/
theorem isDirectory_of_foldlM_step (h : segments.foldlM tree.step here = .ok there)
    (hthere : tree.item? there = some .directory) : tree.item? here = some .directory := by
  cases segments with
  | nil =>
    obtain rfl : here = there := Except.ok.inj h
    exact hthere
  | cons segment segments =>
    rw [List.foldlM_cons] at h
    cases hstep : tree.step here segment with
    | error fault =>
      rw [hstep] at h
      cases h
    | ok next => exact isDirectory_of_step hstep

/-! ### Paths above a directory -/

theorem isDirectory_iff : tree.isDirectory path = true ↔
    tree.locate path = .ok path.toAddress ∧ tree.item? path.toAddress = some .directory := by
  rw [isDirectory, find?]
  cases hlocate : tree.locate path with
  | error fault => simp
  | ok address =>
    rw [(toAddress_of_locate hlocate).2]
    dsimp only
    cases tree.item? address with
    | none => simp
    | some item => cases item <;> simp

/-- The steps to the parent are the first of the steps to a path. -/
theorem isDirectory_of_parent? (h : tree.isDirectory path = true) (habove : path.parent? = some above) :
    tree.isDirectory above = true := by
  obtain ⟨hlocate, hdirectory⟩ := isDirectory_iff.1 h
  obtain ⟨hzero, hsize, habsolute, hsteps⟩ := locate_eq_ok_iff.1 hlocate
  obtain ⟨body, segments, hbody, ⟨rest, hrest⟩, htext⟩ := Path.exists_text_of_parent? habsolute habove
  obtain ⟨tail, -, hpath⟩ := Path.exists_text_eq_append habsolute habove
  rw [hbody, foldlM_step_of_absolute, ← hrest] at hsteps
  obtain ⟨there, hfront, hback⟩ := exists_of_foldlM_step_append hsteps
  have hsegments : (Text.pieces '/' (Text.joined '/' segments)).foldlM tree.step [] = .ok there := by
    by_cases hne : segments = []
    · subst hne
      exact hfront
    · rwa [Text.pieces_joined hne fun segment hmem =>
        Text.not_mem_of_mem_pieces (hrest ▸ List.mem_append_left rest hmem)]
  have hlocated : tree.locate above = .ok there := by
    refine locate_eq_ok_iff.2 ⟨fun hmem => hzero ?_, ?_, (Path.isAbsolute_of_parent? habove).trans habsolute, ?_⟩
    · rw [hpath, String.toList_append]
      exact List.mem_append_left _ hmem
    · exact (Path.utf8ByteSize_lt_of_parent? habsolute habove).le.trans hsize
    · rw [htext, foldlM_step_of_absolute, hsegments]
  rw [isDirectory, find?_of_locate hlocated, isDirectory_of_foldlM_step hback hdirectory]

theorem isDirectory_of_mem_ancestors (h : tree.isDirectory path = true) (habove : above ∈ path.ancestors) :
    tree.isDirectory above = true := by
  induction path using Path.ancestors.induct with
  | case1 path hnone =>
    rw [Path.ancestors_of_parent?_eq_none hnone, List.mem_singleton] at habove
    rwa [habove]
  | case2 path parent hparent ih =>
    rw [Path.ancestors_of_parent? hparent] at habove
    rcases List.mem_cons.1 habove with rfl | habove
    · exact h
    · exact ih (isDirectory_of_parent? h hparent) habove

/-! ### Names in a directory -/

theorem find?_join_of_isDirectory {s : String} (h : tree.isDirectory path = true) (hs : Path.IsName s)
    (hzero : '\x00' ∉ s.toList) (hname : s.utf8ByteSize ≤ maxNameSize)
    (hsize : (path.join ⟨s⟩).text.utf8ByteSize ≤ maxPathSize) :
    tree.find? (path.join ⟨s⟩) = tree.item? (path.toAddress ++ [s]) := by
  obtain ⟨hlocate, hdirectory⟩ := isDirectory_iff.1 h
  obtain ⟨hzeroPath, -, habsolute, hsteps⟩ := locate_eq_ok_iff.1 hlocate
  obtain ⟨front, hjoin, hfront⟩ := Path.exists_toList_join (Path.isAbsolute_name hs) (Path.text_ne_empty habsolute)
  have hfrontSteps : (Text.pieces '/' front).foldlM tree.step [] = .ok path.toAddress := by
    rcases hfront with hfront | hfront
    · rwa [hfront] at hsteps
    · rw [hfront, Text.pieces_snoc_sep] at hsteps
      obtain ⟨there, hthere, hidle⟩ := exists_of_foldlM_step_append hsteps
      have hsame : path.toAddress = there := eq_of_foldlM_step hidle
      rw [hthere, hsame]
  refine find?_of_locate (locate_eq_ok_iff.2 ⟨fun hmem => ?_, hsize, Path.isAbsolute_join habsolute _, ?_⟩)
  · rw [hjoin, List.mem_append, List.mem_cons] at hmem
    rcases hmem with hmem | hmem | hmem
    · rcases hfront with hfront | hfront
      · exact hzeroPath (hfront ▸ hmem)
      · exact hzeroPath (hfront ▸ List.mem_append_left _ hmem)
    · exact absurd hmem (by decide)
    · exact hzero hmem
  · rw [hjoin, Text.pieces_append_cons, Text.pieces_of_not_mem hs.2.2.2,
      foldlM_step_name hfrontSteps hdirectory hs hname]

end LineEndings.Tree

/-
The directories that a path passes.

The paths above a path cut it off component by component, and each of them leads somewhere. Where a `..` takes a
name back, the directory with that name has been passed all the same.

* `reverse_inits_sublist_passed` — the directories that the address of an absolute path stands in are all passed;
* `passed_eq_iff` — and no others are, and none twice, exactly when there is no `..`;
* `utf8ByteSize_join_le` — a name joined to a path above is no longer than the name joined to the path.
-/
import LineEndings.Proofs.Path.Above

namespace LineEndings.Path

variable {p q r : Path}

/-! ### Addresses on the way -/

/-- The addresses of a path and of the paths above it. -/
def passed (p : Path) : List Address :=
  p.ancestors.map toAddress

theorem passed_of_absolute {rest : List Component} (h : p.components = .root :: rest) :
    p.passed = (rest.inits.map (List.foldl enter [])).reverse := by
  have habsolute : p.isAbsolute = true := isAbsolute_iff.2 (by rw [h]; exact List.mem_cons_self)
  have hentered : p.passed = (p.ancestors.map components).map (List.foldl enter []) := by
    rw [passed, List.map_map]
    refine List.map_congr_left fun above habove => ?_
    rw [toAddress_of_absolute (isAbsolute_of_mem_ancestors habove ▸ habsolute)]
    rfl
  rw [hentered, map_components_ancestors, if_pos habsolute, h, List.inits_cons, List.tail_cons, List.map_reverse,
    List.map_map]
  rfl

/-- Each beginning of the address has been passed, and in order. -/
theorem inits_foldl_enter_sublist (components : List Component) :
    (components.foldl enter []).inits.Sublist (components.inits.map (List.foldl enter [])) := by
  induction components using List.reverseRecOn with
  | nil => exact List.Sublist.refl _
  | append_singleton front component ih =>
    have hpassed : (front ++ [component]).inits.map (List.foldl enter []) =
        front.inits.map (List.foldl enter []) ++ [enter (front.foldl enter []) component] := by
      simp [List.inits_append]
    rw [hpassed, List.foldl_append, List.foldl_cons, List.foldl_nil]
    cases component with
    | root => exact ih.trans (List.sublist_append_left _ _)
    | current => exact ih.trans (List.sublist_append_left _ _)
    | name s =>
      rw [enter, List.inits_append]
      exact ih.append (List.Sublist.refl _)
    | parent =>
      -- Without its last name the address has the beginnings that it had, but for the longest.
      refine List.Sublist.trans ?_ (ih.trans (List.sublist_append_left _ _))
      rw [enter]
      rcases List.eq_nil_or_concat (front.foldl enter []) with hnil | ⟨above, s, habove⟩
      · rw [hnil, List.dropLast_nil]
      · rw [habove, List.concat_eq_append, List.dropLast_concat, List.inits_append]
        exact List.sublist_append_left _ _

theorem length_enter_le (here : Address) (component : Component) :
    (enter here component).length ≤ here.length + 1 := by
  cases component with
  | root | current => exact Nat.le_succ _
  | parent => exact (List.dropLast_sublist here).length_le.trans (Nat.le_succ _)
  | name s => exact le_of_eq List.length_append

theorem length_foldl_enter_le (components : List Component) (here : Address) :
    (components.foldl enter here).length ≤ here.length + components.length := by
  induction components generalizing here with
  | nil => exact le_rfl
  | cons component components ih =>
    have hstep := length_enter_le here component
    have hrest := ih (enter here component)
    rw [List.foldl_cons, List.length_cons]
    omega

/-- A step up leaves fewer names than there are components. -/
theorem length_foldl_enter_lt {components : List Component} (h : .parent ∈ components) (here : Address) :
    (components.foldl enter here).length < here.length + components.length := by
  induction components generalizing here with
  | nil => cases h
  | cons component components ih =>
    rw [List.foldl_cons, List.length_cons]
    rcases List.mem_cons.1 h with rfl | h
    · have hup : (enter here .parent).length ≤ here.length := (List.dropLast_sublist here).length_le
      have hrest := length_foldl_enter_le components (enter here .parent)
      omega
    · have hstep := length_enter_le here component
      have hrest := ih h (enter here component)
      omega

/-- The directories that an address stands in are passed on the way to it. -/
theorem reverse_inits_sublist_passed (h : p.isAbsolute = true) :
    p.toAddress.inits.reverse.Sublist p.passed := by
  obtain ⟨rest, hp, -⟩ := components_of_absolute h
  rw [passed_of_absolute hp, toAddress_of_absolute h, hp]
  exact (inits_foldl_enter_sublist rest).reverse

/-- No others are passed, and none twice, exactly when the path never goes up. -/
theorem passed_eq_iff (h : p.isAbsolute = true) :
    p.passed = p.toAddress.inits.reverse ↔ .parent ∉ p.components := by
  constructor
  · intro hpassed hparent
    obtain ⟨rest, hp, -⟩ := components_of_absolute h
    have hrest : .parent ∈ rest := by simpa [hp] using hparent
    have hlength := congrArg List.length hpassed
    rw [passed_of_absolute hp, toAddress_of_absolute h, hp, List.foldl_cons] at hlength
    simp only [List.length_reverse, List.length_map, List.length_inits] at hlength
    have hshort := length_foldl_enter_lt hrest (enter [] .root)
    simp only [enter, List.length_nil] at hlength hshort
    omega
  · exact fun hparent => IsStraight.map_toAddress_ancestors ⟨h, hparent⟩

/-! ### Texts on the way -/

/-- The parent of an absolute path spells some of the first segments. -/
theorem exists_text_of_parent? (h : p.isAbsolute = true) (hq : p.parent? = some q) :
    ∃ body segments, p.text.toList = '/' :: body ∧ segments <+: Text.pieces '/' body ∧
      q.text.toList = '/' :: Text.joined '/' segments := by
  rw [isAbsolute, beq_iff_eq] at h
  obtain ⟨body, hbody⟩ := List.head?_eq_some_iff.1 h
  obtain ⟨text, htext, rfl⟩ := Option.map_eq_some_iff.1 hq
  rw [hbody, parentText?, splitLead] at htext
  dsimp only at htext
  split at htext
  · cases htext
  · refine ⟨body, stripIdle (stripIdle (Text.pieces '/' body)).dropLast, hbody, ?_, ?_⟩
    · exact (stripIdle_isPrefix _).trans ((List.dropLast_prefix _).trans (stripIdle_isPrefix _))
    · rw [String.toList_ofList, ← Option.some.inj htext]
      rfl

/-- There is more to a path than to its parent. -/
theorem exists_text_eq_append (h : p.isAbsolute = true) (hq : p.parent? = some q) :
    ∃ tail, tail ≠ "" ∧ p.text = q.text ++ tail := by
  obtain ⟨body, segments, hp, hsegments, hparent⟩ := exists_text_of_parent? h hq
  have hprefix : q.text.toList <+: p.text.toList := by
    rw [hp, hparent, List.prefix_cons_inj]
    by_cases hne : segments = []
    · rw [hne]
      exact List.nil_prefix
    · obtain ⟨tail, hjoined, -⟩ := Text.exists_joined_append '/' hsegments hne
      rw [Text.joined_pieces] at hjoined
      exact ⟨tail, hjoined.symm⟩
  obtain ⟨tail, htail⟩ := hprefix
  refine ⟨String.ofList tail, ?_, ?_⟩
  · rintro hempty
    have hlt := parent?_length_lt hq
    obtain rfl : tail = [] := by simpa using congrArg String.toList hempty
    rw [← htail, List.append_nil] at hlt
    exact lt_irrefl _ hlt
  · rw [← String.toList_inj, String.toList_append, String.toList_ofList, htail]

theorem utf8ByteSize_lt_of_parent? (h : p.isAbsolute = true) (hq : p.parent? = some q) :
    q.text.utf8ByteSize < p.text.utf8ByteSize := by
  obtain ⟨tail, hne, htext⟩ := exists_text_eq_append h hq
  have hpos : tail.utf8ByteSize ≠ 0 := fun hzero => hne (String.utf8ByteSize_eq_zero_iff.1 hzero)
  rw [htext, String.utf8ByteSize_append]
  omega

/-- There is a slash at most between a path and what is joined to it. -/
theorem utf8ByteSize_join (hr : r.isAbsolute = false) (p : Path) :
    p.text.utf8ByteSize + r.text.utf8ByteSize ≤ (p.join r).text.utf8ByteSize ∧
      (p.join r).text.utf8ByteSize ≤ p.text.utf8ByteSize + 1 + r.text.utf8ByteSize := by
  rw [join, hr, if_neg Bool.false_ne_true]
  split
  · rw [String.utf8ByteSize_append]
    omega
  · have hslash : "/".utf8ByteSize = 1 := rfl
    rw [String.utf8ByteSize_append, String.utf8ByteSize_append]
    omega

/-- What is joined to a path above is no longer than what is joined to the path. -/
theorem utf8ByteSize_join_le (hp : p.isAbsolute = true) (hr : r.isAbsolute = false) (hq : q ∈ p.ancestors) :
    (q.join r).text.utf8ByteSize ≤ (p.join r).text.utf8ByteSize := by
  induction p using ancestors.induct with
  | case1 p hnone =>
    rw [ancestors_of_parent?_eq_none hnone, List.mem_singleton] at hq
    rw [hq]
  | case2 p parent hparent ih =>
    rw [ancestors_of_parent? hparent] at hq
    rcases List.mem_cons.1 hq with rfl | hq
    · exact le_rfl
    · have habove := ih ((isAbsolute_of_parent? hparent).trans hp) hq
      have hshorter := utf8ByteSize_lt_of_parent? hp hparent
      have hjoined := (utf8ByteSize_join hr parent).2
      have hjoins := (utf8ByteSize_join hr p).1
      omega

end LineEndings.Path

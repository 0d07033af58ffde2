/-
The ranges of the branches of a group.

The commas of a group stand between its braces, and inside no pair of braces within it (`commasOf`). That is where
nothing is open before them, and they cut its inside (`GroupAt.cutsAt_of_mem`, `GroupAt.mem_of_cutsAt`), so

* `cutsInto_branchRanges` — its branch ranges are what they cut its inside into;
* `exists_range_of_nested` — and a pair of braces within the group stands in one of them.
-/
import LineEndings.Proofs.Glob.Pairing

namespace LineEndings.Glob.Brace

/-- The places of the commas of a group: no backslash takes them with it, they stand between its braces, and not
between those of a pair within it. -/
def commasOf (s : List Char) (opening closing : Nat) : List Nat :=
  (placesOf ',' s).filter fun comma => opening < comma ∧ comma < closing ∧
    ∀ pair ∈ pairs s, opening < pair.1 → ¬ (pair.1 < comma ∧ comma < pair.2)

/-- Whether half-open ranges are what the places of some commas cut a range into. -/
structure CutsInto (commas : List Nat) (start stop : Nat) (ranges : List (Nat × Nat)) : Prop where
  /-- The first one starts where the range does. -/
  head : ranges.head?.map Prod.fst = some start
  /-- The last one ends where the range does. -/
  last : ranges.getLast?.map Prod.snd = some stop
  /-- None runs backwards. -/
  le : ∀ range ∈ ranges, range.1 ≤ range.2
  /-- Every other one ends at a comma, and the one after it starts behind that. -/
  next : ranges.IsChain fun range after => range.2 ∈ commas ∧ after.1 = range.2 + 1
  /-- No comma stands in one. -/
  uncut : ∀ range ∈ ranges, ∀ comma ∈ commas, comma < range.1 ∨ range.2 ≤ comma

variable {s : List Char} {commas : List Nat} {ranges : List (Nat × Nat)} {i j start stop n m : Nat} {d : Placed}
  {x before inside after : List Placed}

/-! ### Ranges between commas -/

theorem cutsInto_nil (commas : List Nat) (n : Nat) : CutsInto commas n n [(n, n)] where
  head := rfl
  last := rfl
  le := by simp
  next := .singleton _
  uncut := by
    intro range hrange comma _
    obtain rfl := List.mem_singleton.1 hrange
    exact Nat.lt_or_ge comma n

theorem CutsInto.exists_cons (h : CutsInto commas start stop ranges) :
    ∃ next others, ranges = (start, next) :: others := by
  cases ranges with
  | nil => cases h.head
  | cons range others =>
    obtain ⟨first, next⟩ := range
    obtain rfl : first = start := Option.some.inj h.head
    exact ⟨next, others, rfl⟩

/-- A comma in front is a range of its own. -/
theorem CutsInto.cons_comma (h : CutsInto commas (n + 1) stop ranges) (hn : n ∈ commas) :
    CutsInto commas n stop ((n, n) :: ranges) := by
  obtain ⟨next, others, rfl⟩ := h.exists_cons
  refine ⟨rfl, h.last, List.forall_mem_cons.2 ⟨Nat.le_refl n, h.le⟩, ?_, List.forall_mem_cons.2 ⟨?_, h.uncut⟩⟩
  · exact List.isChain_cons_cons.2 ⟨⟨hn, rfl⟩, h.next⟩
  · exact fun comma _ => Nat.lt_or_ge comma n

/-- Anything else in front belongs to the first range. -/
theorem CutsInto.cons_other {next : Nat} {others : List (Nat × Nat)}
    (h : CutsInto commas (n + 1) stop ((n + 1, next) :: others)) (hn : n ∉ commas) :
    CutsInto commas n stop ((n, next) :: others) := by
  obtain ⟨-, hlast, hle, hnext, huncut⟩ := h
  obtain ⟨hfirst, hle⟩ := List.forall_mem_cons.1 hle
  obtain ⟨hfirst', huncut⟩ := List.forall_mem_cons.1 huncut
  refine ⟨rfl, ?_, List.forall_mem_cons.2 ⟨Nat.le_of_succ_le hfirst, hle⟩, ?_,
    List.forall_mem_cons.2 ⟨fun comma hcomma => ?_, huncut⟩⟩
  · cases others with
    | nil => exact hlast
    | cons range others => exact hlast
  · cases others with
    | nil => exact .singleton _
    | cons range others => exact List.isChain_cons_cons.2 (List.isChain_cons_cons.1 hnext)
  · have hne : comma ≠ n := fun heq => hn (heq ▸ hcomma)
    have := hfirst' comma hcomma
    omega

/-- What stands between the commas covers the ranges that they cut a text into. -/
theorem cutsInto_splitOnP (commas : List Nat) (s : List Char) (n : Nat) :
    CutsInto commas n (n + s.length)
      (rangesFrom n (((s.zipIdx n).splitOnP fun c => commas.contains c.2).map text)) := by
  induction s generalizing n with
  | nil => exact cutsInto_nil commas n
  | cons c s ih =>
    have hrest := ih (n + 1)
    rw [Nat.add_right_comm] at hrest
    rw [List.zipIdx_cons, List.length_cons, ← Nat.add_assoc]
    by_cases hn : n ∈ commas
    · have hcut : commas.contains (c, n).2 = true := List.contains_iff_mem.2 hn
      rw [List.splitOnP_cons_eq_if_modifyHead, if_pos hcut]
      exact hrest.cons_comma hn
    · have hcut : commas.contains (c, n).2 = false := by simpa using hn
      rw [splitOnP_cons_of_false hcut]
      cases hparts : (s.zipIdx (n + 1)).splitOnP fun c => commas.contains c.2 with
      | nil => exact absurd hparts (List.splitOnP_ne_nil _ _)
      | cons first others =>
        rw [hparts, List.map_cons, rangesFrom, Nat.add_right_comm n 1] at hrest
        exact hrest.cons_other hn

/-- What no comma stands in is in one of the ranges. -/
theorem CutsInto.exists_range (h : CutsInto commas start stop ranges) (hstart : start ≤ i) (hstop : j < stop)
    (hcommas : ∀ comma ∈ commas, comma < i ∨ j < comma) :
    ∃ range ∈ ranges, range.1 ≤ i ∧ j < range.2 := by
  obtain ⟨hhead, hlast, -, hnext, -⟩ := h
  induction ranges generalizing start with
  | nil => cases hhead
  | cons range others ih =>
    obtain rfl : range.1 = start := Option.some.inj hhead
    cases others with
    | nil =>
      obtain rfl : range.2 = stop := Option.some.inj hlast
      exact ⟨range, List.mem_cons_self, hstart, hstop⟩
    | cons after others =>
      obtain ⟨⟨hcomma, hafter⟩, hnext⟩ := List.isChain_cons_cons.1 hnext
      rcases hcommas range.2 hcomma with hlt | hlt
      · obtain ⟨found, hfound, hin⟩ := ih (by omega) (congrArg some hafter) hlast hnext
        exact ⟨found, List.mem_cons_of_mem range hfound, hin⟩
      · exact ⟨range, List.mem_cons_self, hstart, hlt⟩

/-! ### The commas of a group -/

theorem Walk.opened_eq (h : Walk n x m) : opened n x = m := by
  induction h with
  | nil => rfl
  | escape _ ih => exact ih
  | opening _ ih => rw [opened_single (by simp), if_pos rfl, ih]
  | closing _ ih => rw [opened_single (by simp), if_neg (by simp), if_pos rfl, Nat.add_sub_cancel, ih]
  | plain hc _ ih => rw [opened_single hc.1, if_neg hc.2.1, if_neg hc.2.2, ih]

/-- A comma of a group stands behind a balanced text, as a group around it would be a pair within. -/
theorem GroupAt.cutsAt_of_mem (h : GroupAt s i j before inside after) (hd : d ∈ inside)
    (hmem : d.2 ∈ commasOf s i j) : CutsAt 0 inside d := by
  rw [commasOf, List.mem_filter, mem_placesOf_iff (by simp), decide_eq_true_iff] at hmem
  obtain ⟨⟨front, rest, hstarts⟩, hid, hdj, hpairs⟩ := hmem
  have hplaced : (d.1, d.2) ∈ s.zipIdx := by rw [h.eq]; simp [hd]
  have hcomma : d.1 = ',' := char_unique hplaced hstarts.mem
  obtain ⟨u, v, rfl, hu, rfl, rfl⟩ := h.exists_inside hstarts hid hdj
  refine ⟨hcomma, u, v, ⟨hu, by rw [← hcomma]⟩, ?_⟩
  rcases h.balanced.before_or_inside hu (by simp) with hwalk | ⟨y, k, x, w, l, z, rfl, rfl, hy, hx⟩
  · exact hwalk.opened_eq
  · obtain ⟨hinner, hik, -⟩ := h.inner (k := k) (l := l) (z := z) (by simp) hy hx
    have hk := hinner.opening_eq
    have hl := hinner.closing_eq
    have hplace : d.2 = _ := hstarts.place
    simp only [List.length_append, List.length_cons] at hk hl hplace
    exact absurd ⟨by omega, by omega⟩ (hpairs (k, l) (closer?_eq_some_iff.1 hinner.closer?_eq) hik)

/-- A comma behind a balanced text is one of the group, as a brace that is opened in that text is closed there. -/
theorem GroupAt.mem_of_cutsAt (h : GroupAt s i j before inside after) (hd : CutsAt 0 inside d) :
    d.2 ∈ commasOf s i j := by
  obtain ⟨hcomma, u, v, ⟨hu, rfl⟩, hopened⟩ := hd
  have hwalk : Balanced u := by
    obtain ⟨k, hwalk, -⟩ := h.balanced.split hu
    obtain rfl : k = 0 := by rw [← hwalk.opened_eq, hopened]
    exact hwalk
  have hstarts : Starts s.zipIdx (before ++ ('{', i) :: u) d (v ++ ('}', j) :: after) :=
    ⟨h.units.append (.single (by simp) hu), by rw [h.eq]; simp⟩
  have hplace := hstarts.place
  have hopening := h.opening_eq
  have hclosing := h.closing_eq
  simp only [List.length_append, List.length_cons] at hplace hclosing
  rw [commasOf, List.mem_filter, mem_placesOf_iff (by simp), decide_eq_true_iff]
  refine ⟨⟨_, _, by rw [← hcomma]; exact hstarts⟩, by omega, by omega, ?_⟩
  rintro ⟨k, l⟩ hpair hik ⟨hkd, hdl⟩
  have hkl := closer?_eq_some_iff.2 hpair
  obtain ⟨front, rest, hk⟩ := (mem_placesOf_iff (by simp)).1 (braces_of_closer? hkl).2.1
  have hfront : k = front.length := hk.place
  obtain ⟨w, z, rfl, hw, rfl, rfl⟩ := hstarts.exists_between (by simp) h.units hk (by omega) (by omega)
  obtain ⟨a, m, b, rfl, ha⟩ := hwalk.exists_closing hw
  obtain ⟨hinner, -, -⟩ := h.inner (k := k) (l := m) (z := b ++ d :: v) (by simp) hw ha
  have hm := hinner.closing_eq
  rw [hinner.closer?_eq] at hkl
  cases hkl
  simp only [List.length_append, List.length_cons] at hm hplace
  omega

theorem eq_zipIdx_of_append {y z : List Placed} (h : s.zipIdx = x ++ (y ++ z)) : y = (text y).zipIdx x.length := by
  obtain ⟨u, v, rfl, hu, hv⟩ := List.zipIdx_eq_append_iff.1 h
  obtain ⟨u', v', rfl, hu', -⟩ := List.zipIdx_eq_append_iff.1 hv.symm
  rw [hu', hu, List.length_zipIdx, Nat.zero_add, text, List.zipIdx_map_fst]

theorem GroupAt.branchRanges_eq (h : GroupAt s i j before inside after) :
    branchRanges s i j = rangesFrom (i + 1) ((parts inside).map text) := by
  have hranges := Brace.branchRanges_eq ⟨h.units, h.balanced, i, j, h.eq⟩
  rwa [text_zipIdx, ← h.closing_eq, ← h.opening_eq] at hranges

/-- The branch ranges of a group are what its commas cut its inside into. -/
theorem cutsInto_branchRanges (h : (i, j) ∈ pairs s) :
    CutsInto (commasOf s i j) (i + 1) j (branchRanges s i j) := by
  obtain ⟨before, inside, after, hgroup⟩ := closer?_eq_some_iff_groupAt.1 (closer?_eq_some_iff.2 h)
  have hnodup : inside.Nodup := by
    have hall := nodup_zipIdx s
    rw [hgroup.eq] at hall
    exact (List.nodup_append.1 (List.nodup_cons.1 (List.nodup_append.1 hall).2.1).2).1
  have hparts : parts inside = inside.splitOnP fun c => (commasOf s i j).contains c.2 :=
    partsFrom_eq_splitOnP hnodup fun c hc =>
      List.contains_iff_mem.trans ⟨hgroup.cutsAt_of_mem hc, hgroup.mem_of_cutsAt⟩
  have hinside : inside = (text inside).zipIdx (i + 1) := by
    have heq : s.zipIdx = (before ++ [('{', i)]) ++ (inside ++ ('}', j) :: after) := by rw [hgroup.eq]; simp
    have hinside := eq_zipIdx_of_append heq
    rwa [List.length_append, List.length_singleton, ← hgroup.opening_eq] at hinside
  have hcuts := cutsInto_splitOnP (commasOf s i j) (text inside) (i + 1)
  rw [← hinside, ← hparts, ← hgroup.branchRanges_eq, length_text] at hcuts
  have hclosing : i + 1 + inside.length = j := by rw [hgroup.closing_eq, ← hgroup.opening_eq]
  rwa [hclosing] at hcuts

/-- A pair of braces within a group stands in one of its branches. -/
theorem exists_range_of_nested {k l : Nat} (h : (i, j) ∈ pairs s) (h' : (k, l) ∈ pairs s) (hik : i < k) (hlj : l < j) :
    ∃ range ∈ branchRanges s i j, range.1 ≤ k ∧ l < range.2 := by
  refine (cutsInto_branchRanges h).exists_range hik hlj fun comma hcomma => ?_
  rw [commasOf, List.mem_filter, decide_eq_true_iff] at hcomma
  obtain ⟨hplace, -, -, hpairs⟩ := hcomma
  obtain ⟨-, hk, hl⟩ := braces_of_closer? (closer?_eq_some_iff.2 h')
  have hnot := hpairs (k, l) h' hik
  have hne : comma ≠ k := ne_of_mem_placesOf (by simp) (by simp) (by simp) hplace hk
  have hne' : comma ≠ l := ne_of_mem_placesOf (by simp) (by simp) (by simp) hplace hl
  omega

end LineEndings.Glob.Brace

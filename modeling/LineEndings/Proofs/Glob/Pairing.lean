/-
Which brace closes which.

Braces that no backslash takes with it belong together in pairs, and there is one way to put them into pairs that
nest (`Nests`): two answers that both do agree on every pair, by induction on how far it reaches
(`Nests.closer_eq`). The pairs of matching braces do:

* `nests_closer?` — what is inside a pair is balanced, so each brace there has its partner there;
* `getElem?_closers_eq_iff` — one pass with a stack of the braces that are open finds them;
* `nests_iff_eq_closers` — so what it finds is the one way to nest.
-/
import LineEndings.Proofs.Glob.Splitting

namespace LineEndings.Glob.Brace

variable {s : List Char} {answer other : Nat → Option Nat} {i j k : Nat} {p before inside after : List Placed}

/-! ### One way to nest -/

/-- Whether an answer, which gives the place of the brace that closes the one at a place, puts the braces of a text
into pairs that nest. -/
structure Nests (s : List Char) (answer : Nat → Option Nat) : Prop where
  /-- A pair is an opening brace and a closing brace after it. -/
  braces : ∀ i j, answer i = some j → i < j ∧ i ∈ placesOf '{' s ∧ j ∈ placesOf '}' s
  /-- No brace closes two others. -/
  closes_once : ∀ i k j, answer i = some j → answer k = some j → i = k
  /-- Two pairs stand apart, or one inside the other. -/
  apart_or_inside : ∀ i j k l, answer i = some j → answer k = some l → i < k → j < k ∨ l < j
  /-- An opening brace inside a pair is closed there. -/
  closed_inside : ∀ i j k, answer i = some j → k ∈ placesOf '{' s → i < k → k < j → ∃ l < j, answer k = some l
  /-- A closing brace inside a pair closes one there. -/
  opened_inside : ∀ i j l, answer i = some j → l ∈ placesOf '}' s → i < l → l < j → ∃ k > i, answer k = some l
  /-- A closing brace that closes none stands before every opening brace that is not closed. -/
  unpaired : ∀ j ∈ placesOf '}' s, (∀ i, answer i ≠ some j) → ∀ i ∈ placesOf '{' s, answer i = none → j < i

/-- What one answer puts into a pair, every other does. -/
theorem Nests.closer_eq (h : Nests s answer) (h' : Nests s other) (hpair : answer i = some j) :
    other i = some j := by
  induction hreach : j - i using Nat.strong_induction_on generalizing i j with
  | _ reach ih =>
    obtain ⟨hlt, hopening, hclosing⟩ := h.braces i j hpair
    have hinside : ∀ k l, answer k = some l → i < k → l < j → other k = some l := by
      intro k l hkl hk hl
      have hkl' := (h.braces k l hkl).1
      exact ih (l - k) (by omega) hkl rfl
    -- The other answer has no brace inside the pair that `j` would close, as it is closed before `j`.
    have hnone : ∀ k, i < k → other k ≠ some j := by
      intro k hk hkj
      obtain ⟨hkj', hk', -⟩ := h'.braces k j hkj
      obtain ⟨l, hl, hkl⟩ := h.closed_inside i j k hpair hk' hk hkj'
      rw [hinside k l hkl hk hl] at hkj
      cases hkj
      omega
    cases hother : other i with
    | some l =>
      obtain ⟨hil, -, hl⟩ := h'.braces i l hother
      rcases Nat.lt_trichotomy l j with hlj | rfl | hjl
      · obtain ⟨k, hk, hkl⟩ := h.opened_inside i j l hpair hl hil hlj
        have hik := h'.closes_once i k l hother (hinside k l hkl hk hlj)
        omega
      · rfl
      · obtain ⟨k, hk, hkj⟩ := h'.opened_inside i l j hother hclosing hlt hjl
        exact absurd hkj (hnone k hk)
    | none =>
      by_cases hcloses : ∃ k, other k = some j
      · obtain ⟨k, hkj⟩ := hcloses
        rcases Nat.lt_trichotomy k i with hki | rfl | hik
        · obtain ⟨l, -, hil⟩ := h'.closed_inside k j i hkj hopening hki hlt
          rw [hother] at hil
          cases hil
        · rw [hother] at hkj
          cases hkj
        · exact absurd hkj (hnone k hik)
      · have hji := h'.unpaired j hclosing (fun k hkj => hcloses ⟨k, hkj⟩) i hopening hother
        omega

theorem Nests.unique (h : Nests s answer) (h' : Nests s other) : answer = other := by
  funext i
  refine Option.ext fun j => ⟨fun hpair => ?_, fun hpair => ?_⟩
  · exact h.closer_eq h' hpair
  · exact h'.closer_eq h hpair

/-! ### The pairs of matching braces -/

/-- The place of the brace that closes the one at a place. -/
def closer? (s : List Char) (opening : Nat) : Option Nat :=
  (pairs s).lookup opening

theorem closer?_eq_some_iff : closer? s i = some j ↔ (i, j) ∈ pairs s := by
  have hmem : ∀ j, closer? s i = some j → (i, j) ∈ pairs s := by
    intro j h
    obtain ⟨front, back, hpairs, -⟩ := List.lookup_eq_some_iff.1 h
    rw [hpairs]
    exact List.mem_append_cons_self
  refine ⟨hmem j, fun h => ?_⟩
  cases hfound : closer? s i with
  | none => simpa using List.lookup_eq_none_iff.1 hfound _ h
  | some k =>
    have hk := hmem k hfound
    rw [← text_zipIdx s] at h hk
    rw [closing_unique hk h]

/-- Whether a text has a group, with its braces at two places and these texts before, in and after them. -/
structure GroupAt (s : List Char) (i j : Nat) (before inside after : List Placed) : Prop where
  units : Units before
  balanced : Balanced inside
  eq : s.zipIdx = before ++ ('{', i) :: (inside ++ ('}', j) :: after)

theorem GroupAt.starts_opening (h : GroupAt s i j before inside after) :
    Starts s.zipIdx before ('{', i) (inside ++ ('}', j) :: after) :=
  ⟨h.units, h.eq⟩

theorem GroupAt.starts_closing (h : GroupAt s i j before inside after) :
    Starts s.zipIdx (before ++ ('{', i) :: inside) ('}', j) after :=
  ⟨h.units.append (.single (by simp) h.balanced.units), by rw [h.eq, List.append_assoc]; rfl⟩

theorem GroupAt.opening_eq (h : GroupAt s i j before inside after) : i = before.length :=
  h.starts_opening.place

theorem GroupAt.closing_eq (h : GroupAt s i j before inside after) : j = before.length + 1 + inside.length := by
  have hplace : j = (before ++ ('{', i) :: inside).length := h.starts_closing.place
  rw [hplace, List.length_append, List.length_cons]
  omega

/-- What starts between two other starts, of which the first is no backslash, starts in the text between them. -/
theorem Starts.exists_between {c d e : Placed} {front rest : List Placed} (hc : c.1 ≠ '\\') (hbefore : Units before)
    (h : Starts p (before ++ c :: inside) d after) (hstarts : Starts p front e rest)
    (hlt : before.length < front.length) (hlt' : front.length < before.length + 1 + inside.length) :
    ∃ u v, inside = u ++ e :: v ∧ Units u ∧ front = before ++ c :: u ∧ rest = v ++ d :: after := by
  have hbound : front.length < (before ++ c :: inside).length := by
    rw [List.length_append, List.length_cons]
    omega
  obtain ⟨v, rfl, hv⟩ := h.exists_before hstarts hbound
  obtain ⟨u, rfl, hu⟩ := hv.exists_before (⟨hbefore, rfl⟩ : Starts _ before c inside) hlt
  have hunits := hstarts.units
  rw [hu.eq] at hunits
  exact ⟨u, v, rfl, (hbefore.of_append hunits).of_single hc, hu.eq, rfl⟩

theorem GroupAt.exists_inside (h : GroupAt s i j before inside after) {char : Char} {front rest : List Placed}
    (hstarts : Starts s.zipIdx front (char, k) rest) (hik : i < k) (hkj : k < j) :
    ∃ u v, inside = u ++ (char, k) :: v ∧ Units u ∧ front = before ++ ('{', i) :: u ∧
      rest = v ++ ('}', j) :: after := by
  have hplace : k = front.length := hstarts.place
  have hopening := h.opening_eq
  have hclosing := h.closing_eq
  exact Starts.exists_between (by simp) h.units h.starts_closing hstarts (by omega) (by omega)

/-- A pair of matching braces stands around a balanced text. -/
theorem closer?_eq_some_iff_groupAt :
    closer? s i = some j ↔ ∃ before inside after, GroupAt s i j before inside after := by
  have hpairs := @mem_pairsFrom_iff s.zipIdx 0 (i, j)
  rw [text_zipIdx] at hpairs
  rw [closer?_eq_some_iff, pairs, hpairs]
  constructor
  · rintro ⟨before, inside, after, ⟨hbefore, hinside, i', j', heq⟩, hpair⟩
    have hgroup : GroupAt s i' j' before inside after := ⟨hbefore, hinside, heq⟩
    rw [Nat.zero_add, ← hgroup.closing_eq, ← hgroup.opening_eq] at hpair
    obtain ⟨rfl, rfl⟩ := Prod.mk.inj hpair
    exact ⟨before, inside, after, hgroup⟩
  · rintro ⟨before, inside, after, hgroup⟩
    refine ⟨before, inside, after, ⟨hgroup.units, hgroup.balanced, i, j, hgroup.eq⟩, ?_⟩
    rw [Nat.zero_add, ← hgroup.closing_eq, ← hgroup.opening_eq]

theorem GroupAt.closer?_eq (h : GroupAt s i j before inside after) : closer? s i = some j :=
  closer?_eq_some_iff_groupAt.2 ⟨before, inside, after, h⟩

theorem braces_of_closer? (h : closer? s i = some j) :
    i < j ∧ i ∈ placesOf '{' s ∧ j ∈ placesOf '}' s := by
  obtain ⟨before, inside, after, hgroup⟩ := closer?_eq_some_iff_groupAt.1 h
  have hopening := hgroup.opening_eq
  have hclosing := hgroup.closing_eq
  exact ⟨by omega, (mem_placesOf_iff (by simp)).2 ⟨_, _, hgroup.starts_opening⟩,
    (mem_placesOf_iff (by simp)).2 ⟨_, _, hgroup.starts_closing⟩⟩

/-- A balanced text in braces inside a group is one within it. -/
theorem GroupAt.inner {y z : List Placed} {l : Nat} {u : List Placed} (h : GroupAt s i j before inside after)
    (hinside : inside = y ++ ('{', k) :: (u ++ ('}', l) :: z)) (hy : Units y) (hu : Balanced u) :
    GroupAt s k l (before ++ ('{', i) :: y) u (z ++ ('}', j) :: after) ∧ i < k ∧ l < j := by
  have hgroup : GroupAt s k l (before ++ ('{', i) :: y) u (z ++ ('}', j) :: after) :=
    ⟨h.units.append (.single (by simp) hy), hu, by rw [h.eq, hinside]; simp⟩
  have hi := h.opening_eq
  have hj := h.closing_eq
  have hk := hgroup.opening_eq
  have hl := hgroup.closing_eq
  rw [hinside] at hj
  simp only [List.length_append, List.length_cons] at hj hk hl
  exact ⟨hgroup, by omega, by omega⟩

theorem exists_closed_inside (h : closer? s i = some j) (hk : k ∈ placesOf '{' s) (hik : i < k) (hkj : k < j) :
    ∃ l < j, closer? s k = some l := by
  obtain ⟨before, inside, after, hgroup⟩ := closer?_eq_some_iff_groupAt.1 h
  obtain ⟨front, rest, hstarts⟩ := (mem_placesOf_iff (by simp)).1 hk
  obtain ⟨w, z, rfl, hw, rfl, rfl⟩ := hgroup.exists_inside hstarts hik hkj
  obtain ⟨u, l, v, rfl, hu⟩ := hgroup.balanced.exists_closing hw
  obtain ⟨hinner, -, hl⟩ := hgroup.inner rfl hw hu
  exact ⟨l, hl, hinner.closer?_eq⟩

theorem exists_opened_inside (h : closer? s i = some j) (hk : k ∈ placesOf '}' s) (hik : i < k) (hkj : k < j) :
    ∃ l > i, closer? s l = some k := by
  obtain ⟨before, inside, after, hgroup⟩ := closer?_eq_some_iff_groupAt.1 h
  obtain ⟨front, rest, hstarts⟩ := (mem_placesOf_iff (by simp)).1 hk
  obtain ⟨w, z, rfl, hw, rfl, rfl⟩ := hgroup.exists_inside hstarts hik hkj
  obtain ⟨u, l, v, rfl, hu, hv⟩ := hgroup.balanced.exists_opening hw
  obtain ⟨hinner, hl, -⟩ := hgroup.inner (List.append_assoc u _ _) hu hv
  exact ⟨l, hl, hinner.closer?_eq⟩

theorem ne_of_mem_placesOf {a b : Char} (ha : a ≠ '\\') (hb : b ≠ '\\') (hab : a ≠ b) (hi : i ∈ placesOf a s)
    (hj : j ∈ placesOf b s) : i ≠ j := by
  rintro rfl
  obtain ⟨_, _, hstarts⟩ := (mem_placesOf_iff ha).1 hi
  obtain ⟨_, _, hstarts'⟩ := (mem_placesOf_iff hb).1 hj
  exact hab (char_unique hstarts.mem hstarts'.mem)

theorem lt_or_lt_of_closer? {l : Nat} (h : closer? s i = some j) (h' : closer? s k = some l) (hik : i < k) :
    j < k ∨ l < j := by
  obtain ⟨-, hk, -⟩ := braces_of_closer? h'
  have hne := ne_of_mem_placesOf (by simp) (by simp) (by simp) hk (braces_of_closer? h).2.2
  by_cases hkj : k < j
  · obtain ⟨l', hl', hkl'⟩ := exists_closed_inside h hk hik hkj
    rw [h'] at hkl'
    cases hkl'
    exact Or.inr hl'
  · exact Or.inl (by omega)

theorem opening_unique (h : closer? s i = some j) (h' : closer? s k = some j) : i = k := by
  have hij := (braces_of_closer? h).1
  have hkj := (braces_of_closer? h').1
  rcases Nat.lt_trichotomy i k with hik | heq | hki
  · have := lt_or_lt_of_closer? h h' hik
    omega
  · exact heq
  · have := lt_or_lt_of_closer? h' h hki
    omega

/-- When an opening brace is not closed, each closing brace after it closes another one. -/
theorem lt_of_unpaired (hi : i ∈ placesOf '{' s) (hj : j ∈ placesOf '}' s) (hopening : closer? s i = none)
    (hclosing : ∀ k, closer? s k ≠ some j) : j < i := by
  obtain ⟨before, after, hbefore⟩ := (mem_placesOf_iff (by simp)).1 hi
  obtain ⟨front, rest, hfront⟩ := (mem_placesOf_iff (by simp)).1 hj
  have hplace : i = before.length := hbefore.place
  have hplace' : j = front.length := hfront.place
  have hne := ne_of_mem_placesOf (by simp) (by simp) (by simp) hi hj
  by_contra hge
  obtain ⟨between, rfl, hbetween⟩ := hfront.exists_before hbefore (by omega)
  have hunits := hfront.units
  rw [hbetween.eq] at hunits
  -- The brace at `j` closes the last group that is open behind a walk over what is between.
  rcases walk_cases 0 between with ⟨n, hwalk⟩ | ⟨x, k, z, rfl, hx⟩ | ⟨x, k, n, rfl, hx⟩
  · cases n with
    | zero =>
      have hgroup : GroupAt s i j before between rest := ⟨hbefore.units, hwalk, hbefore.eq⟩
      exact hclosing i hgroup.closer?_eq
    | succ n =>
      rcases hwalk.exists_opening with ⟨y, k, x, rfl, hy, hx⟩ | ⟨k, hk, -⟩
      · have hgroup : GroupAt s k j (before ++ ('{', i) :: y) x rest :=
          ⟨hbefore.units.append (.single (by simp) hy.units), hx, by rw [hbefore.eq]; simp⟩
        exact hclosing k hgroup.closer?_eq
      · omega
  · have hgroup : GroupAt s i k before x (z ++ ('}', j) :: rest) :=
      ⟨hbefore.units, hx, by rw [hbefore.eq, List.append_assoc x]; rfl⟩
    rw [hgroup.closer?_eq] at hopening
    cases hopening
  · -- The backslash would take the brace at `j` with it.
    have hlone := hx.units.of_append ((hbefore.units.of_append hunits).of_single (by simp))
    cases hlone with
    | single hc _ => exact hc rfl

theorem nests_closer? (s : List Char) : Nests s (closer? s) where
  braces _ _ := braces_of_closer?
  closes_once _ _ _ := opening_unique
  apart_or_inside _ _ _ _ := lt_or_lt_of_closer?
  closed_inside _ _ _ := exists_closed_inside
  opened_inside _ _ _ := exists_opened_inside
  unpaired _ hj hclosing _ hi hopening := lt_of_unpaired hi hj hopening hclosing

theorem nests_iff_eq_closer? : Nests s answer ↔ answer = closer? s := by
  refine ⟨fun h => h.unique (nests_closer? s), ?_⟩
  rintro rfl
  exact nests_closer? s

/-! ### One pass -/

/-- A pass over a text: for each place the closing brace that has been found for it, and the places of the braces
that are open, the last one first. -/
structure Pass where
  answer : List (Option Nat)
  opened : List Nat

/-- The pass at a character that no backslash takes with it. -/
def Pass.step (pass : Pass) (c : Char) (place : Nat) : Pass :=
  if c = '{' then ⟨pass.answer, place :: pass.opened⟩
  else if c = '}' then
    match pass.opened with
    | [] => pass
    | i :: opened => ⟨pass.answer.set i (some place), opened⟩
  else pass

/-- The pass over a text that starts at a place. -/
def Pass.run (pass : Pass) (place : Nat) : List Char → Pass
  | [] => pass
  | '\\' :: [] => pass
  | '\\' :: _ :: s => pass.run (place + 2) s
  | c :: s => (pass.step c place).run (place + 1) s

/-- For each place of a text the closing brace that one pass finds for it. -/
def closers (s : List Char) : List (Option Nat) :=
  (Pass.run ⟨List.replicate s.length none, []⟩ 0 s).answer

/-- Whether the brace at `j` closes a group that `n` others are open in, in a text that starts at a place. -/
def Closes (n place : Nat) (s : List Char) (j : Nat) : Prop :=
  ∃ found, split? n s = some found ∧ j = place + found.1.length

/-- What a pass has found, or finds in the text that is left. -/
def Pass.Finds (pass : Pass) (place : Nat) (s : List Char) (i j : Nat) : Prop :=
  pass.answer[i]? = some (some j) ∨ (∃ n, pass.opened[n]? = some i ∧ Closes n place s j) ∨
    (i, j) ∈ pairsFrom place s

/-- Whether nothing has been written for a brace that is open, or for the places that are left. -/
structure Pass.Ready (pass : Pass) (place count : Nat) : Prop where
  nodup : pass.opened.Nodup
  opened : ∀ i ∈ pass.opened, i < place ∧ pass.answer[i]? = some none
  ahead : ∀ i, place ≤ i → i < place + count → pass.answer[i]? = some none

variable {pass : Pass} {n m place count : Nat} {c : Char} {x : List Placed}

/-- Behind a walk the same brace closes the group. -/
theorem Walk.closes_append_iff (h : Walk n x m) :
    Closes n place (text x ++ s) j ↔ Closes m (place + x.length) s j := by
  rw [Closes, Closes, h.split?_append]
  simp only [Option.map_eq_some_iff, exists_exists_and_eq_and, List.length_append, length_text]
  exact exists_congr fun found => and_congr_right fun _ => by rw [Nat.add_assoc]

theorem closes_escape_iff (c : Char) : Closes n place ('\\' :: c :: s) j ↔ Closes n (place + 2) s j :=
  (Walk.escape .nil : Walk n [('\\', 0), (c, 0)] n).closes_append_iff

theorem closes_opening_iff : Closes n place ('{' :: s) j ↔ Closes (n + 1) (place + 1) s j :=
  (Walk.opening .nil : Walk n [('{', 0)] (n + 1)).closes_append_iff

theorem closes_closing_iff : Closes (n + 1) place ('}' :: s) j ↔ Closes n (place + 1) s j :=
  (Walk.closing .nil : Walk (n + 1) [('}', 0)] n).closes_append_iff

theorem closes_closing_zero_iff : Closes 0 place ('}' :: s) j ↔ j = place := by
  simp [Closes, split?_closing_zero]

theorem closes_plain_iff (hc : c ≠ '\\' ∧ c ≠ '{' ∧ c ≠ '}') :
    Closes n place (c :: s) j ↔ Closes n (place + 1) s j :=
  (Walk.plain hc .nil : Walk n [(c, 0)] n).closes_append_iff

theorem mem_pairsFrom_opening_iff :
    (i, j) ∈ pairsFrom place ('{' :: s) ↔ i = place ∧ Closes 0 (place + 1) s j ∨ (i, j) ∈ pairsFrom (place + 1) s := by
  rw [pairsFrom_single (by simp), if_pos rfl, List.mem_append]
  simp only [List.mem_map, Option.mem_toList, Prod.mk.injEq, Closes]
  refine or_congr_left ⟨?_, ?_⟩
  · rintro ⟨found, hfound, rfl, rfl⟩
    exact ⟨rfl, found, hfound, rfl⟩
  · rintro ⟨rfl, found, hfound, rfl⟩
    exact ⟨found, hfound, rfl, rfl⟩

theorem pairsFrom_of_ne (hc : c ≠ '\\') (hopening : c ≠ '{') (place : Nat) (s : List Char) :
    pairsFrom place (c :: s) = pairsFrom (place + 1) s := by
  rw [pairsFrom_single hc, if_neg hopening, List.nil_append]

theorem Pass.run_single (hc : c ≠ '\\') (pass : Pass) (place : Nat) (s : List Char) :
    pass.run place (c :: s) = (pass.step c place).run (place + 1) s := by
  rw [run]
  · exact fun h => absurd h hc
  · exact fun _ _ h => absurd h hc

theorem Pass.Ready.later (h : pass.Ready place count) {place' count' : Nat} (hle : place ≤ place')
    (hle' : place' + count' ≤ place + count) : pass.Ready place' count' where
  nodup := h.nodup
  opened i hi := ⟨Nat.lt_of_lt_of_le (h.opened i hi).1 hle, (h.opened i hi).2⟩
  ahead i hi hi' := h.ahead i (by omega) (by omega)

/-- An answer is written for a brace that is open, and that brace is open no longer. -/
theorem Pass.Ready.step (h : pass.Ready place (count + 1)) (c : Char) :
    (pass.step c place).Ready (place + 1) count := by
  have hlater : pass.Ready (place + 1) count := h.later (by omega) (by omega)
  unfold Pass.step
  split
  · refine ⟨List.nodup_cons.2 ⟨fun hmem => Nat.lt_irrefl _ (h.opened _ hmem).1, h.nodup⟩, ?_, hlater.ahead⟩
    exact List.forall_mem_cons.2 ⟨⟨Nat.lt_succ_self _, h.ahead _ (Nat.le_refl _) (by omega)⟩, hlater.opened⟩
  · split
    · split
      · exact hlater
      · rename_i i opened heq
        obtain ⟨hnodup, hopened, hahead⟩ := hlater
        rw [heq] at hnodup hopened
        obtain ⟨hnot, hnodup⟩ := List.nodup_cons.1 hnodup
        obtain ⟨hi, hopened⟩ := List.forall_mem_cons.1 hopened
        refine ⟨hnodup, fun k hk => ?_, fun k hk hk' => ?_⟩
        · have hne : i ≠ k := fun hik => hnot (hik ▸ hk)
          rw [List.getElem?_set_ne hne]
          exact hopened k hk
        · rw [List.getElem?_set_ne (by omega)]
          exact hahead k hk hk'
    · exact hlater

theorem getElem?_set_eq_some_iff {answer : List (Option Nat)} {k : Nat} (h : answer[k]? = some none) :
    (answer.set k (some place))[i]? = some (some j) ↔ k = i ∧ j = place ∨ answer[i]? = some (some j) := by
  by_cases hki : k = i
  · subst hki
    have hlt : k < answer.length := (List.getElem?_eq_some_iff.1 h).1
    rw [List.getElem?_set_self hlt, h]
    simp [eq_comm]
  · rw [List.getElem?_set_ne hki]
    simp [hki]

/-- What a pass finds does not change with a step. -/
theorem Pass.Ready.finds_step (h : pass.Ready place (count + 1)) (hc : c ≠ '\\') :
    (pass.step c place).Finds (place + 1) s i j ↔ pass.Finds place (c :: s) i j := by
  obtain ⟨answer, opened⟩ := pass
  rw [Finds, Finds]
  by_cases hopening : c = '{'
  · -- The brace that is opened here comes first now, and the others one later.
    subst hopening
    simp only [Pass.step, if_true, mem_pairsFrom_opening_iff, closes_opening_iff]
    rw [← Nat.or_exists_add_one]
    simp only [List.getElem?_cons_zero, List.getElem?_cons_succ, Option.some_inj, eq_comm (a := i), or_assoc]
    exact or_congr_right or_left_comm
  · rw [pairsFrom_of_ne hc hopening]
    by_cases hclosing : c = '}'
    · subst hclosing
      cases opened with
      | nil => simp [Pass.step]
      | cons k opened =>
        -- The brace that is closed here came first, and the others come one earlier now.
        have hk : answer[k]? = some none := (h.opened k List.mem_cons_self).2
        simp only [Pass.step, if_neg hopening, if_true, getElem?_set_eq_some_iff hk]
        rw [← Nat.or_exists_add_one (p := fun n => (k :: opened)[n]? = some i ∧ _)]
        simp only [List.getElem?_cons_zero, List.getElem?_cons_succ, Option.some_inj, closes_closing_iff,
          closes_closing_zero_iff, or_assoc]
        exact or_left_comm
    · simp only [closes_plain_iff ⟨hc, hopening, hclosing⟩, Pass.step, if_neg hopening, if_neg hclosing]

theorem Pass.Ready.answer_run (h : pass.Ready place p.length) :
    (pass.run place (text p)).answer[i]? = some (some j) ↔ pass.Finds place (text p) i j := by
  induction p using unitInduction generalizing pass place with
  | nil => simp [run, Finds, Closes, split?, pairsFrom]
  | lone i => simp [run, Finds, Closes, split?, pairsFrom]
  | escape i c s ih =>
    rw [text_cons, text_cons, run, ih (h.later (by omega) (by simp only [List.length_cons]; omega))]
    simp only [Finds, closes_escape_iff, pairsFrom]
  | single c s hc ih =>
    rw [text_cons, run_single hc, ih (h.step c.1), h.finds_step hc]

theorem Pass.length_answer_step (pass : Pass) (c : Char) (place : Nat) :
    (pass.step c place).answer.length = pass.answer.length := by
  unfold Pass.step
  split
  · rfl
  · split
    · split
      · rfl
      · exact List.length_set
    · rfl

theorem Pass.length_answer_run (pass : Pass) (place : Nat) (p : List Placed) :
    (pass.run place (text p)).answer.length = pass.answer.length := by
  induction p using unitInduction generalizing pass place with
  | nil => rfl
  | lone i => rfl
  | escape i c s ih =>
    rw [text_cons, text_cons, run]
    exact ih pass (place + 2)
  | single c s hc ih =>
    rw [text_cons, run_single hc, ih, length_answer_step]

theorem length_closers (s : List Char) : (closers s).length = s.length := by
  have hrun := Pass.length_answer_run ⟨List.replicate s.length none, []⟩ 0 s.zipIdx
  rw [text_zipIdx, List.length_replicate] at hrun
  exact hrun

/-- One pass finds the pairs of matching braces. -/
theorem getElem?_closers_eq_iff : (closers s)[i]? = some (some j) ↔ (i, j) ∈ pairs s := by
  have hready : Pass.Ready ⟨List.replicate s.length none, []⟩ 0 s.zipIdx.length := by
    refine ⟨List.nodup_nil, by simp, fun i _ hi => ?_⟩
    rw [List.length_zipIdx, Nat.zero_add] at hi
    simp [hi]
  have hrun := hready.answer_run (i := i) (j := j)
  rw [text_zipIdx] at hrun
  rw [closers, hrun, pairs, Pass.Finds]
  simp [List.getElem?_replicate]

theorem join_getElem?_closers (s : List Char) (i : Nat) : (closers s)[i]?.join = closer? s i := by
  refine Option.ext fun j => ?_
  rw [Option.join_eq_some_iff, getElem?_closers_eq_iff, closer?_eq_some_iff]

/-- The braces of a text nest in one way, and that is what one pass finds: the pairs of matching braces. -/
theorem nests_iff_eq_closers (s : List Char) (answer : Nat → Option Nat) :
    (Nests s answer ↔ ∀ i, answer i = (closers s)[i]?.join) ∧ (closers s).length = s.length ∧
      ∀ i j, (closers s)[i]? = some (some j) ↔ (i, j) ∈ pairs s := by
  refine ⟨?_, length_closers s, fun i j => getElem?_closers_eq_iff⟩
  simp only [join_getElem?_closers, nests_iff_eq_closer?, funext_iff]

-- The first brace is never closed, and does not keep the second one from being closed.
example : closers "\x7bx/\x7ba,b\x7d".toList = [none, none, none, some 7, none, none, none, none] := by
  decide +kernel

end LineEndings.Glob.Brace

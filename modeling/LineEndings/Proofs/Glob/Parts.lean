/-
How a group is cut into its branches.

`partsFrom` cuts a pattern as `Brace.cutFrom` cuts its text (`map_text_parts`). A text is `Solid` when it is
balanced and has no comma outside of its own braces, so that no cut goes through it.

* `solid_group`, `solid_of_mem_parts` — a group is solid, and so are the parts of a balanced text;
* `cut_joined` — texts that no cut goes through, with commas between them, are the parts of the whole;
* `exists_partsFrom_append` — the cut around a solid text is the same whatever that text is;
* `map_slice_branchRanges` — the branch ranges of a group are where the parts of its inside stand.
-/
import LineEndings.Proofs.Glob.Braces
import LineEndings.Text.Split

namespace LineEndings.Glob.Brace

variable {α : Type} {n m k : Nat} {i j : Nat} {c : Placed} {s x y inside rest : List Placed}

/-! ### Parts -/

/-- The parts of a text as `Brace.cutFrom` finds them, with the places of their characters. -/
def partsFrom (opened : Nat) : List Placed → List (List Placed)
  | [] => [[]]
  | [('\\', i)] => [[('\\', i)]]
  | ('\\', i) :: c :: s => prependFirst [('\\', i), c] (partsFrom opened s)
  | c :: s =>
    if c.1 = ',' ∧ opened = 0 then [] :: partsFrom opened s
    else
      -- A brace that closes no group leaves the count at zero.
      prependFirst [c]
        (partsFrom (if c.1 = '{' then opened + 1 else if c.1 = '}' then opened - 1 else opened) s)

/-- The parts of a text between its commas outside of braces. -/
def parts (s : List Placed) : List (List Placed) :=
  partsFrom 0 s

theorem partsFrom_escape (n i : Nat) (c : Placed) (s : List Placed) :
    partsFrom n (('\\', i) :: c :: s) = prependFirst [('\\', i), c] (partsFrom n s) := by
  rw [partsFrom]

theorem partsFrom_single (hc : c.1 ≠ '\\') (n : Nat) (s : List Placed) :
    partsFrom n (c :: s) =
      if c.1 = ',' ∧ n = 0 then [] :: partsFrom n s
      else prependFirst [c] (partsFrom (if c.1 = '{' then n + 1 else if c.1 = '}' then n - 1 else n) s) := by
  rw [partsFrom]
  · rintro i rfl
    exact absurd rfl hc
  · rintro i d t rfl
    exact absurd rfl hc

theorem partsFrom_opening (n i : Nat) (s : List Placed) :
    partsFrom n (('{', i) :: s) = prependFirst [('{', i)] (partsFrom (n + 1) s) := by
  rw [partsFrom_single (by simp)]
  simp

theorem partsFrom_closing (n i : Nat) (s : List Placed) :
    partsFrom (n + 1) (('}', i) :: s) = prependFirst [('}', i)] (partsFrom n s) := by
  rw [partsFrom_single (by simp)]
  simp

/-- A comma with no group open stands between two parts. -/
theorem partsFrom_comma (i : Nat) (s : List Placed) :
    partsFrom 0 ((',', i) :: s) = [] :: partsFrom 0 s := by
  rw [partsFrom_single (by simp)]
  simp

theorem partsFrom_plain (hc : c.1 ≠ '\\' ∧ c.1 ≠ '{' ∧ c.1 ≠ '}') (hcomma : ¬ (c.1 = ',' ∧ n = 0))
    (s : List Placed) : partsFrom n (c :: s) = prependFirst [c] (partsFrom n s) := by
  rw [partsFrom_single hc.1, if_neg hcomma, if_neg hc.2.1, if_neg hc.2.2]

theorem prependFirst_prependFirst (x y : List α) (parts : List (List α)) :
    prependFirst x (prependFirst y parts) = prependFirst (x ++ y) parts := by
  cases parts with
  | nil => rfl
  | cons first others =>
    show (x ++ (y ++ first)) :: others = (x ++ y ++ first) :: others
    rw [List.append_assoc]

theorem prependFirst_ne_nil (x : List α) (parts : List (List α)) : prependFirst x parts ≠ [] := by
  cases parts <;> exact List.cons_ne_nil _ _

theorem mem_prependFirst {x part : List α} {parts : List (List α)} (hne : parts ≠ [])
    (h : part ∈ prependFirst x parts) : part ∈ parts ∨ ∃ first ∈ parts, part = x ++ first := by
  cases parts with
  | nil => exact absurd rfl hne
  | cons first others =>
    rcases List.mem_cons.1 h with rfl | h
    · exact Or.inr ⟨first, by simp, rfl⟩
    · exact Or.inl (List.mem_cons_of_mem _ h)

theorem partsFrom_ne_nil (n : Nat) (s : List Placed) : partsFrom n s ≠ [] := by
  induction s using unitInduction with
  | nil => exact List.cons_ne_nil _ _
  | lone i => exact List.cons_ne_nil _ _
  | escape i c s _ =>
    rw [partsFrom_escape]
    exact prependFirst_ne_nil _ _
  | single c s hc _ =>
    rw [partsFrom_single hc]
    split
    · exact List.cons_ne_nil _ _
    · exact prependFirst_ne_nil _ _

theorem map_text_prependFirst (x : List Placed) (parts : List (List Placed)) :
    (prependFirst x parts).map text = prependFirst (text x) (parts.map text) := by
  cases parts with
  | nil => rfl
  | cons first others =>
    show text (x ++ first) :: others.map text = (text x ++ text first) :: others.map text
    rw [text_append]

/-- Cutting the text gives the texts of the parts. -/
theorem map_text_partsFrom (n : Nat) (s : List Placed) :
    (partsFrom n s).map text = cutFrom n (text s) := by
  induction s using unitInduction generalizing n with
  | nil => rfl
  | lone i => rfl
  | escape i c s ih =>
    have hcut : cutFrom n ('\\' :: c.1 :: text s) = prependFirst ['\\', c.1] (cutFrom n (text s)) := by
      rw [cutFrom]
    rw [partsFrom_escape, map_text_prependFirst, ih]
    exact hcut.symm
  | single c s hc ih =>
    rw [partsFrom_single hc, text_cons, cutFrom]
    · split
      · rw [List.map_cons, ih]
        rfl
      · rw [map_text_prependFirst, ih]
        rfl
    · exact fun h => absurd h hc
    · exact fun _ _ h => absurd h hc

theorem map_text_parts (s : List Placed) : (parts s).map text = cut (text s) :=
  map_text_partsFrom 0 s

/-! ### Balanced texts in a cut -/

/-- Whether a balanced text has no comma outside of its own braces, so that no cut goes through it. -/
structure Solid (s : List Placed) : Prop where
  balanced : Balanced s
  partsFrom_append : ∀ n rest, partsFrom n (s ++ rest) = prependFirst s (partsFrom n rest)

theorem prependFirst_nil (n : Nat) (s : List Placed) : prependFirst [] (partsFrom n s) = partsFrom n s := by
  cases h : partsFrom n s with
  | nil => exact absurd h (partsFrom_ne_nil n s)
  | cons first others => rfl

theorem solid_nil : Solid [] :=
  ⟨.nil, fun n rest => (prependFirst_nil n rest).symm⟩

theorem Solid.append (hx : Solid x) (hy : Solid y) : Solid (x ++ y) := by
  refine ⟨hx.balanced.append hy.balanced, fun n rest => ?_⟩
  rw [List.append_assoc, hx.partsFrom_append, hy.partsFrom_append, prependFirst_prependFirst]

theorem solid_escape (i : Nat) (c : Placed) : Solid [('\\', i), c] :=
  ⟨.escape .nil, fun n rest => partsFrom_escape n i c rest⟩

theorem solid_plain (hc : c.1 ≠ '\\' ∧ c.1 ≠ '{' ∧ c.1 ≠ '}') (hcomma : c.1 ≠ ',') : Solid [c] :=
  ⟨.plain hc .nil, fun _ rest => partsFrom_plain hc (fun h => hcomma h.1) rest⟩

/-- Inside a group there is no cut. -/
theorem Walk.partsFrom_append (h : Walk n x m) (rest : List Placed) :
    partsFrom (n + 1) (x ++ rest) = prependFirst x (partsFrom (m + 1) rest) := by
  induction h with
  | nil => exact (prependFirst_nil _ _).symm
  | escape _ ih =>
    rw [List.cons_append, List.cons_append, partsFrom_escape, ih, prependFirst_prependFirst]
    rfl
  | opening _ ih =>
    rw [List.cons_append, partsFrom_opening, ih, prependFirst_prependFirst]
    rfl
  | closing _ ih =>
    rw [List.cons_append, partsFrom_closing, ih, prependFirst_prependFirst]
    rfl
  | plain hc _ ih =>
    rw [List.cons_append, partsFrom_plain hc (by simp), ih, prependFirst_prependFirst]
    rfl

theorem solid_group (h : Balanced inside) : Solid (('{', i) :: (inside ++ [('}', j)])) := by
  refine ⟨h.group, fun n rest => ?_⟩
  have hclosing : partsFrom (n + 1) (inside ++ ('}', j) :: rest) =
      prependFirst inside (prependFirst [('}', j)] (partsFrom n rest)) := by
    rw [(h.walk n).partsFrom_append, partsFrom_closing]
  rw [List.cons_append, List.append_assoc, partsFrom_opening]
  show prependFirst _ (partsFrom (n + 1) (inside ++ ('}', j) :: rest)) = _
  rw [hclosing, prependFirst_prependFirst, prependFirst_prependFirst]
  rfl

/-- The parts of a text that closes all groups it starts with: the first one closes them, and the others
are solid. -/
theorem Walk.exists_partsFrom (h : Walk n s m) (hm : m = 0) :
    ∃ first others, partsFrom n s = first :: others ∧ Walk n first 0 ∧
      -- The first part alone is not solid, but stays in one piece while its `n` groups are open before it.
      (∀ k rest, partsFrom (n + k) (first ++ rest) = prependFirst first (partsFrom k rest)) ∧
      ∀ part ∈ others, Solid part := by
  induction h with
  | @nil n =>
    subst hm
    refine ⟨[], [], rfl, .nil, fun k rest => ?_, by simp⟩
    rw [Nat.zero_add, prependFirst_nil]
    rfl
  | @escape n m i c s _ ih =>
    obtain ⟨first, others, hparts, hwalk, hfirst, hothers⟩ := ih hm
    refine ⟨('\\', i) :: c :: first, others, ?_, .escape hwalk, fun k rest => ?_, hothers⟩
    · rw [partsFrom_escape, hparts]
      rfl
    · rw [List.cons_append, List.cons_append, partsFrom_escape, hfirst, prependFirst_prependFirst]
      rfl
  | @opening n m i s _ ih =>
    obtain ⟨first, others, hparts, hwalk, hfirst, hothers⟩ := ih hm
    refine ⟨('{', i) :: first, others, ?_, .opening hwalk, fun k rest => ?_, hothers⟩
    · rw [partsFrom_opening, hparts]
      rfl
    · rw [List.cons_append, partsFrom_opening, Nat.add_right_comm, hfirst, prependFirst_prependFirst]
      rfl
  | @closing n m i s _ ih =>
    obtain ⟨first, others, hparts, hwalk, hfirst, hothers⟩ := ih hm
    refine ⟨('}', i) :: first, others, ?_, .closing hwalk, fun k rest => ?_, hothers⟩
    · rw [partsFrom_closing, hparts]
      rfl
    · rw [List.cons_append, Nat.add_right_comm, partsFrom_closing, hfirst, prependFirst_prependFirst]
      rfl
  | @plain n m c s hc _ ih =>
    obtain ⟨first, others, hparts, hwalk, hfirst, hothers⟩ := ih hm
    by_cases hcomma : c.1 = ',' ∧ n = 0
    · -- A new first part, and the one before is solid.
      obtain ⟨hchar, rfl⟩ := hcomma
      obtain ⟨c, i⟩ := c
      subst hchar
      refine ⟨[], first :: others, ?_, .nil, fun k rest => ?_, ?_⟩
      · rw [partsFrom_comma, hparts]
      · rw [Nat.zero_add, prependFirst_nil]
        rfl
      · intro part hpart
        rcases List.mem_cons.1 hpart with rfl | hpart
        · refine ⟨hwalk, fun k rest => ?_⟩
          have hk := hfirst k rest
          rwa [Nat.zero_add] at hk
        · exact hothers part hpart
    · refine ⟨c :: first, others, ?_, .plain hc hwalk, fun k rest => ?_, hothers⟩
      · rw [partsFrom_plain hc hcomma, hparts]
        rfl
      · have hcomma' : ¬ (c.1 = ',' ∧ n + k = 0) := fun h => hcomma ⟨h.1, by omega⟩
        rw [List.cons_append, partsFrom_plain hc hcomma', hfirst, prependFirst_prependFirst]
        rfl

theorem solid_of_mem_parts (h : Balanced s) {part : List Placed} (hpart : part ∈ parts s) :
    Solid part := by
  obtain ⟨first, others, hparts, hwalk, hfirst, hothers⟩ := h.exists_partsFrom rfl
  rw [parts, hparts] at hpart
  rcases List.mem_cons.1 hpart with rfl | hpart
  · refine ⟨hwalk, fun k rest => ?_⟩
    have hk := hfirst k rest
    rwa [Nat.zero_add] at hk
  · exact hothers part hpart

/-! ### Texts between commas -/

/-- Whether no cut goes through a text that another follows, and nothing is open behind it. -/
def Uncut (s : List Char) : Prop :=
  ∀ rest, cut (s ++ rest) = prependFirst s (cut rest)

section

variable {s t : List Char}

theorem uncut_text {x : List Placed} (h : ∀ rest, parts (x ++ rest) = prependFirst x (parts rest)) :
    Uncut (text x) := by
  intro rest
  rw [← text_placed rest, ← text_append, ← map_text_parts, h, map_text_prependFirst, map_text_parts]

theorem Solid.uncut (h : Solid (placed s)) : Uncut s := by
  have hs := uncut_text fun rest => h.partsFrom_append 0 rest
  rwa [text_placed] at hs

theorem uncut_nil : Uncut [] :=
  Solid.uncut (by rw [placed_nil]; exact solid_nil)

theorem Uncut.append (hs : Uncut s) (ht : Uncut t) : Uncut (s ++ t) := by
  intro rest
  rw [List.append_assoc, hs, ht, prependFirst_prependFirst]

theorem Uncut.cut_eq (h : Uncut s) : cut s = [s] := by
  have hcut := h []
  rw [List.append_nil] at hcut
  rw [hcut]
  show [s ++ []] = [s]
  rw [List.append_nil]

/-- Such a text in front of a comma is a part. -/
theorem Uncut.cut_append_comma (h : Uncut s) (rest : List Char) : cut (s ++ ',' :: rest) = s :: cut rest := by
  have hcomma : cut (',' :: rest) = [] :: cut rest := by simp [cut, cutFrom]
  rw [h, hcomma]
  show (s ++ []) :: cut rest = _
  rw [List.append_nil]

/-- Such texts with commas between them are the parts of the whole. -/
theorem cut_joined {l : List (List Char)} (hne : l ≠ []) (h : ∀ s ∈ l, Uncut s) : cut (Text.joined ',' l) = l := by
  induction l with
  | nil => exact absurd rfl hne
  | cons s l ih =>
    have hs := h s (by simp)
    by_cases hl : l = []
    · subst hl
      exact hs.cut_eq
    · rw [Text.joined_cons_of_ne_nil ',' s hl, hs.cut_append_comma, ih hl fun t ht => h t (by simp [ht])]

theorem balanced_joined {l : List (List Char)} (h : ∀ s ∈ l, Solid (placed s)) : Balanced (placed (Text.joined ',' l)) := by
  induction l with
  | nil => exact .nil
  | cons s l ih =>
    have hs := (h s (by simp)).balanced
    by_cases hl : l = []
    · subst hl
      exact hs
    · rw [Text.joined_cons_of_ne_nil ',' s hl, placed_append, placed_cons]
      exact hs.append (.plain (by simp) (ih fun t ht => h t (by simp [ht])))

end

/-! ### What is around a solid text -/

theorem exists_prependFirst_append (u a : List α) (pre post : List (List α)) :
    ∃ pre' a', (a' = a ∨ a' = u ++ a) ∧
      ∀ r, prependFirst u (pre ++ (a ++ r) :: post) = pre' ++ (a' ++ r) :: post := by
  cases pre with
  | nil => exact ⟨[], u ++ a, Or.inr rfl, fun r => by rw [List.append_assoc]; rfl⟩
  | cons first pre => exact ⟨(u ++ first) :: pre, a, Or.inl rfl, fun r => rfl⟩

/-- The cut around a solid text does not depend on the text. -/
theorem exists_partsFrom_append {before : List Placed} (h : Units before) (n : Nat)
    (after : List Placed) :
    ∃ pre a b post, Units a ∧ a.length ≤ before.length ∧
      ∀ s, Solid s → partsFrom n (before ++ (s ++ after)) = pre ++ (a ++ (s ++ b)) :: post := by
  induction h generalizing n with
  | nil =>
    cases hafter : partsFrom n after with
    | nil => exact absurd hafter (partsFrom_ne_nil n after)
    | cons b post =>
      refine ⟨[], [], b, post, .nil, Nat.le_refl 0, fun s hs => ?_⟩
      rw [List.nil_append, hs.partsFrom_append, hafter]
      rfl
  | @escape i c front hfront ih =>
    obtain ⟨pre, a, b, post, ha, hlength, hparts⟩ := ih n
    obtain ⟨pre', a', ha', hprepend⟩ := exists_prependFirst_append [('\\', i), c] a pre post
    refine ⟨pre', a', b, post, ?_, ?_, fun s hs => ?_⟩
    · rcases ha' with rfl | rfl
      · exact ha
      · exact .escape ha
    · rcases ha' with rfl | rfl <;> simp only [List.length_append, List.length_cons, List.length_nil] <;> omega
    · rw [List.cons_append, List.cons_append, partsFrom_escape, hparts s hs, hprepend]
  | @single c front hc hfront ih =>
    by_cases hcomma : c.1 = ',' ∧ n = 0
    · obtain ⟨pre, a, b, post, ha, hlength, hparts⟩ := ih n
      refine ⟨[] :: pre, a, b, post, ha, Nat.le_succ_of_le hlength, fun s hs => ?_⟩
      rw [List.cons_append, partsFrom_single hc, if_pos hcomma, hparts s hs]
      rfl
    · obtain ⟨pre, a, b, post, ha, hlength, hparts⟩ :=
        ih (if c.1 = '{' then n + 1 else if c.1 = '}' then n - 1 else n)
      obtain ⟨pre', a', ha', hprepend⟩ := exists_prependFirst_append [c] a pre post
      refine ⟨pre', a', b, post, ?_, ?_, fun s hs => ?_⟩
      · rcases ha' with rfl | rfl
        · exact ha
        · exact .single hc ha
      · rcases ha' with rfl | rfl <;> simp only [List.length_append, List.length_cons, List.length_nil] <;> omega
      · rw [List.cons_append, partsFrom_single hc, if_neg hcomma, hparts s hs, hprepend]

/-- A part around a solid text becomes the part around another one, and all other parts stay. -/
theorem mem_parts_of_exchange {before after part s t : List Placed} (hunits : Units before)
    (hs : Solid s) (ht : Solid t) (hpart : part ∈ parts (before ++ (s ++ after))) :
    part ∈ parts (before ++ (t ++ after)) ∨ ∃ a b, Units a ∧ a.length ≤ before.length ∧
      part = a ++ (s ++ b) ∧ a ++ (t ++ b) ∈ parts (before ++ (t ++ after)) := by
  obtain ⟨pre, a, b, post, ha, hlength, hparts⟩ := exists_partsFrom_append hunits 0 after
  rw [parts, hparts s hs, List.mem_append, List.mem_cons] at hpart
  rw [parts, hparts t ht]
  rcases hpart with hpart | rfl | hpart
  · exact Or.inl (by simp [hpart])
  · exact Or.inr ⟨a, b, ha, hlength, rfl, by simp⟩
  · exact Or.inl (by simp [hpart])

/-! ### Branch ranges -/

/-- The first part, and behind the comma after it the others. -/
theorem exists_partsFrom_eq_cons (n : Nat) (s : List Placed) :
    ∃ first others, partsFrom n s = first :: others ∧
      (others = [] ∧ s = first ∨ ∃ i rest, s = first ++ (',', i) :: rest ∧ others = parts rest) := by
  induction s using unitInduction generalizing n with
  | nil => exact ⟨[], [], rfl, Or.inl ⟨rfl, rfl⟩⟩
  | lone i => exact ⟨[('\\', i)], [], rfl, Or.inl ⟨rfl, rfl⟩⟩
  | escape i c s ih =>
    obtain ⟨first, others, hparts, hcases⟩ := ih n
    refine ⟨('\\', i) :: c :: first, others, by rw [partsFrom_escape, hparts]; rfl, ?_⟩
    rcases hcases with ⟨rfl, rfl⟩ | ⟨j, rest, rfl, rfl⟩
    · exact Or.inl ⟨rfl, rfl⟩
    · exact Or.inr ⟨j, rest, rfl, rfl⟩
  | single c s hc ih =>
    rw [partsFrom_single hc]
    split
    · rename_i hcomma
      exact ⟨[], partsFrom n s, rfl, Or.inr ⟨c.2, s, by rw [← hcomma.1]; rfl, by rw [hcomma.2]; rfl⟩⟩
    · obtain ⟨first, others, hparts, hcases⟩ :=
        ih (if c.1 = '{' then n + 1 else if c.1 = '}' then n - 1 else n)
      refine ⟨c :: first, others, by rw [hparts]; rfl, ?_⟩
      rcases hcases with ⟨rfl, rfl⟩ | ⟨j, rest, rfl, rfl⟩
      · exact Or.inl ⟨rfl, rfl⟩
      · exact Or.inr ⟨j, rest, rfl, rfl⟩

theorem sublist_of_mem_parts {s part : List Placed} (h : part ∈ parts s) : part.Sublist s := by
  obtain ⟨first, others, hparts, hcases⟩ := exists_partsFrom_eq_cons 0 s
  rw [parts, hparts] at h
  rcases hcases with ⟨rfl, rfl⟩ | ⟨i, rest, rfl, rfl⟩
  · rw [List.mem_singleton.1 h]
  · rcases List.mem_cons.1 h with rfl | h
    · exact List.sublist_append_left _ _
    · have hrest := sublist_of_mem_parts h
      exact (hrest.trans (List.sublist_cons_self (',', i) rest)).trans (List.sublist_append_right _ _)
termination_by s.length
decreasing_by simp_all; omega

/-- What a pattern has in a range. -/
def slice (p : List α) (range : Nat × Nat) : List α :=
  (p.take range.2).drop range.1

theorem slice_append (before s after : List α) :
    slice (before ++ (s ++ after)) (before.length, before.length + s.length) = s := by
  rw [slice, List.take_append, List.drop_append]
  simp

theorem map_slice_rangesFrom (before s after : List Placed) :
    (rangesFrom before.length ((parts s).map text)).map (slice (before ++ (s ++ after))) = parts s := by
  obtain ⟨first, others, hparts, hcases⟩ := exists_partsFrom_eq_cons 0 s
  rw [parts, hparts, List.map_cons, rangesFrom, List.map_cons, length_text]
  rcases hcases with ⟨rfl, rfl⟩ | ⟨i, rest, rfl, rfl⟩
  · rw [slice_append]
    rfl
  · have hrest := map_slice_rangesFrom (before ++ (first ++ [(',', i)])) rest after
    have hlength : (before ++ (first ++ [(',', i)])).length = before.length + first.length + 1 := by
      simp only [List.length_append, List.length_cons, List.length_nil]
      omega
    have heq : before ++ (first ++ [(',', i)]) ++ (rest ++ after) =
        before ++ ((first ++ (',', i) :: rest) ++ after) := by simp
    rw [hlength, heq] at hrest
    rw [hrest, List.append_assoc first, slice_append]
termination_by s.length
decreasing_by simp_all; omega

/-- The branch ranges of a group are those that its parts cover behind the opening brace. -/
theorem branchRanges_eq {p before after : List Placed} (h : HasGroup p before inside after) :
    branchRanges (text p) before.length (before.length + 1 + inside.length) =
      rangesFrom (before.length + 1) ((parts inside).map text) := by
  obtain ⟨-, -, i, j, rfl⟩ := h
  -- Seen from behind the opening brace, the text inside is a slice.
  have hinside := slice_append (before ++ [('{', i)]) inside (('}', j) :: after)
  rw [List.length_append, List.length_singleton, List.append_assoc, List.singleton_append] at hinside
  have htext : ((text (before ++ ('{', i) :: (inside ++ ('}', j) :: after))).take
      (before.length + 1 + inside.length)).drop (before.length + 1) = text inside := by
    rw [text, ← List.map_take, ← List.map_drop]
    exact congrArg text hinside
  rw [branchRanges, htext, map_text_parts]

/-- The branch ranges of a group cut out the parts of what is inside its braces. -/
theorem map_slice_branchRanges {p before after : List Placed}
    (h : HasGroup p before inside after) :
    (branchRanges (text p) before.length (before.length + 1 + inside.length)).map (slice p) =
      parts inside := by
  rw [branchRanges_eq h]
  obtain ⟨-, -, i, j, rfl⟩ := h
  have hslices := map_slice_rangesFrom (before ++ [('{', i)]) inside (('}', j) :: after)
  rwa [List.length_append, List.length_singleton, List.append_assoc, List.singleton_append] at hslices

end LineEndings.Glob.Brace

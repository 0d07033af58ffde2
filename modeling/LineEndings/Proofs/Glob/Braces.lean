/-
Where the braces of a pattern match.

A backslash and the character after it are one unit, and so is any other character. `Walk` follows a
text unit by unit and counts the open groups, which never falls below zero; a text is `Balanced` when the
walk comes back to where it started. Splitting a group off goes on behind a walk (`Walk.split?_append`),
and what it finds inside the group is balanced (`exists_walk_of_split?`), so

* `mem_pairsFrom_iff` — the pairs of matching braces are those around the balanced texts in braces.
-/
import LineEndings.Glob.Tokenizer
import Mathlib.Data.List.Basic

namespace LineEndings.Glob

/-- A character of a pattern with its place there. -/
abbrev Placed := Char × Nat

/-- The characters alone. -/
def text (p : List Placed) : List Char :=
  p.map Prod.fst

@[simp] theorem text_nil : text [] = [] := rfl

@[simp] theorem text_cons (c : Placed) (p : List Placed) : text (c :: p) = c.1 :: text p := rfl

@[simp] theorem text_append (p q : List Placed) : text (p ++ q) = text p ++ text q :=
  List.map_append

@[simp] theorem length_text (p : List Placed) : (text p).length = p.length :=
  List.length_map _

/-- A text whose places do not matter. -/
def placed (s : List Char) : List Placed :=
  s.map (·, 0)

@[simp] theorem placed_nil : placed [] = [] := rfl

@[simp] theorem placed_cons (c : Char) (s : List Char) : placed (c :: s) = (c, 0) :: placed s := rfl

@[simp] theorem placed_append (s t : List Char) : placed (s ++ t) = placed s ++ placed t :=
  List.map_append

@[simp] theorem text_placed (s : List Char) : text (placed s) = s := by
  rw [placed, text, List.map_map]
  exact List.map_id s

namespace Brace

/-! ### Walks -/

/-- Whether a text ends with a whole unit. -/
inductive Units : List Placed → Prop
  | nil : Units []
  | escape {i : Nat} {c : Placed} {s : List Placed} (h : Units s) : Units (('\\', i) :: c :: s)
  | single {c : Placed} {s : List Placed} (hc : c.1 ≠ '\\') (h : Units s) : Units (c :: s)

/-- Induction over the units of a text, and the backslash that may be left at its end. -/
@[elab_as_elim]
theorem unitInduction {motive : List Placed → Prop} (nil : motive [])
    (lone : ∀ i, motive [('\\', i)])
    (escape : ∀ i c s, motive s → motive (('\\', i) :: c :: s))
    (single : ∀ c s, c.1 ≠ '\\' → motive s → motive (c :: s)) : ∀ s, motive s
  | [] => nil
  | [(c, i)] => by
    by_cases hc : c = '\\'
    · subst hc
      exact lone i
    · exact single (c, i) [] hc nil
  | (c, i) :: d :: s => by
    by_cases hc : c = '\\'
    · subst hc
      exact escape i d s (unitInduction nil lone escape single s)
    · exact single (c, i) (d :: s) hc (unitInduction nil lone escape single (d :: s))

/-- The walk over a text that starts with `n` groups open and ends with `m`. -/
inductive Walk : Nat → List Placed → Nat → Prop
  | nil {n : Nat} : Walk n [] n
  | escape {n m i : Nat} {c : Placed} {s : List Placed} (h : Walk n s m) :
      Walk n (('\\', i) :: c :: s) m
  | opening {n m i : Nat} {s : List Placed} (h : Walk (n + 1) s m) : Walk n (('{', i) :: s) m
  | closing {n m i : Nat} {s : List Placed} (h : Walk n s m) : Walk (n + 1) (('}', i) :: s) m
  | plain {n m : Nat} {c : Placed} {s : List Placed} (hc : c.1 ≠ '\\' ∧ c.1 ≠ '{' ∧ c.1 ≠ '}')
      (h : Walk n s m) : Walk n (c :: s) m

/-- Whether every group that a text opens is closed in it, and no other. -/
abbrev Balanced (s : List Placed) : Prop :=
  Walk 0 s 0

variable {n m k : Nat} {i j : Nat} {c : Placed} {s x y inside rest : List Placed}

theorem Walk.units (h : Walk n s m) : Units s := by
  induction h with
  | nil => exact .nil
  | escape _ ih => exact .escape ih
  | opening _ ih => exact .single (by simp) ih
  | closing _ ih => exact .single (by simp) ih
  | plain hc _ ih => exact .single hc.1 ih

theorem Units.append (hx : Units x) (hy : Units y) : Units (x ++ y) := by
  induction hx with
  | nil => exact hy
  | escape _ ih => exact .escape ih
  | single hc _ ih => exact .single hc ih

theorem Units.of_single (hc : c.1 ≠ '\\') (h : Units (c :: s)) : Units s := by
  cases h with
  | escape _ => exact absurd rfl hc
  | single _ h => exact h

theorem Units.of_append (hx : Units x) (h : Units (x ++ y)) : Units y := by
  induction hx with
  | nil => exact h
  | escape _ ih =>
    cases h with
    | escape h => exact ih h
    | single hc _ => exact absurd rfl hc
  | single hc _ ih => exact ih (h.of_single hc)

theorem Walk.append (hx : Walk n x m) (hy : Walk m y k) : Walk n (x ++ y) k := by
  induction hx with
  | nil => exact hy
  | escape _ ih => exact .escape (ih hy)
  | opening _ ih => exact .opening (ih hy)
  | closing _ ih => exact .closing (ih hy)
  | plain hc _ ih => exact .plain hc (ih hy)

theorem Walk.of_plain (hc : c.1 ≠ '\\' ∧ c.1 ≠ '{' ∧ c.1 ≠ '}') (h : Walk n (c :: s) m) : Walk n s m := by
  cases h with
  | escape _ => exact absurd rfl hc.1
  | opening _ => exact absurd rfl hc.2.1
  | closing _ => exact absurd rfl hc.2.2
  | plain _ h => exact h

/-- Behind a part of a walk the walk goes on. -/
theorem Walk.of_append (hx : Walk n x k) (h : Walk n (x ++ y) m) : Walk k y m := by
  induction hx with
  | nil => exact h
  | escape _ ih =>
    cases h with
    | escape h => exact ih h
    | plain hc _ => exact absurd rfl hc.1
  | opening _ ih =>
    cases h with
    | opening h => exact ih h
    | plain hc _ => exact absurd rfl hc.2.1
  | closing _ ih =>
    cases h with
    | closing h => exact ih h
    | plain hc _ => exact absurd rfl hc.2.2
  | plain hc _ ih => exact ih (h.of_plain hc)

/-- A walk ends in one way. -/
theorem Walk.unique (h : Walk n s m) (h' : Walk n s k) : m = k := by
  have hnil : Walk m [] k := h.of_append (by rwa [List.append_nil])
  cases hnil
  rfl

/-- A walk over a single character goes on behind it, whatever follows. -/
theorem Walk.of_single (hc : c.1 ≠ '\\') (h : Walk n (c :: s) m) :
    ∃ k, Walk k s m ∧ ∀ x e, Walk k x e → Walk n (c :: x) e := by
  cases h with
  | escape _ => exact absurd rfl hc
  | opening h => exact ⟨_, h, fun x e hx => .opening hx⟩
  | closing h => exact ⟨_, h, fun x e hx => .closing hx⟩
  | plain hc h => exact ⟨_, h, fun x e hx => .plain hc hx⟩

/-- A walk over two texts stops between them. -/
theorem Walk.split (hx : Units x) (h : Walk n (x ++ y) m) : ∃ k, Walk n x k ∧ Walk k y m := by
  induction hx generalizing n with
  | nil => exact ⟨n, .nil, h⟩
  | escape _ ih =>
    cases h with
    | escape h =>
      obtain ⟨k, hx, hy⟩ := ih h
      exact ⟨k, .escape hx, hy⟩
    | plain hc _ => exact absurd rfl hc.1
  | single hc _ ih =>
    obtain ⟨e, hrest, hstep⟩ := h.of_single hc
    obtain ⟨k, hx, hy⟩ := ih hrest
    exact ⟨k, hstep _ k hx, hy⟩

/-- No walk takes a backslash with nothing after it. -/
theorem not_walk_lone : ¬ Walk n [('\\', i)] m := by
  intro h
  cases h with
  | plain hc _ => exact hc.1 rfl

/-- A walk can start with more groups open. -/
theorem Walk.shift (h : Walk n s m) (k : Nat) : Walk (n + k) s (m + k) := by
  induction h with
  | nil => exact .nil
  | escape _ ih => exact .escape ih
  | @opening n m i s _ ih =>
    rw [Nat.add_right_comm] at ih
    exact .opening ih
  | @closing n m i s _ ih =>
    rw [Nat.add_right_comm]
    exact .closing ih
  | plain hc _ ih => exact .plain hc ih

/-- A balanced text can stand anywhere. -/
theorem Balanced.walk (h : Balanced s) (n : Nat) : Walk n s n := by
  have hn := Walk.shift h n
  rwa [Nat.zero_add] at hn

theorem Balanced.group (h : Balanced inside) : Balanced (('{', i) :: (inside ++ [('}', j)])) :=
  .opening ((h.walk 1).append (.closing .nil))

theorem Balanced.of_group (hinside : Balanced inside)
    (h : Balanced (('{', i) :: (inside ++ ('}', j) :: rest))) : Balanced rest := by
  have heq : ('{', i) :: (inside ++ ('}', j) :: rest) =
      ('{', i) :: (inside ++ [('}', j)]) ++ rest := by simp
  rw [heq] at h
  exact hinside.group.of_append h

/-! ### Splitting a group off -/

theorem split?_escape (n : Nat) (c : Char) (s : List Char) :
    split? n ('\\' :: c :: s) = (split? n s).map fun (i, r) => ('\\' :: c :: i, r) := by
  rw [split?]

theorem split?_opening (n : Nat) (s : List Char) :
    split? n ('{' :: s) = (split? (n + 1) s).map fun (i, r) => ('{' :: i, r) := by
  cases n <;> simp [split?]

theorem split?_closing (n : Nat) (s : List Char) :
    split? (n + 1) ('}' :: s) = (split? n s).map fun (i, r) => ('}' :: i, r) := by
  simp [split?]

theorem split?_plain {c : Char} (hc : c ≠ '\\' ∧ c ≠ '{' ∧ c ≠ '}') (n : Nat) (s : List Char) :
    split? n (c :: s) = (split? n s).map fun (i, r) => (c :: i, r) := by
  cases n <;> simp [split?, hc]

/-- Splitting goes on behind a walk. -/
theorem Walk.split?_append (h : Walk n x m) (s : List Char) :
    split? n (text x ++ s) = (split? m s).map fun (i, r) => (text x ++ i, r) := by
  induction h with
  | nil => simp
  | escape _ ih =>
    simp only [text_cons, List.cons_append, split?_escape, ih, Option.map_map]
    rfl
  | opening _ ih =>
    simp only [text_cons, List.cons_append, split?_opening, ih, Option.map_map]
    rfl
  | closing _ ih =>
    simp only [text_cons, List.cons_append, split?_closing, ih, Option.map_map]
    rfl
  | plain hc _ ih =>
    simp only [text_cons, List.cons_append, split?_plain hc, ih, Option.map_map]
    rfl

theorem split?_group (h : Balanced inside) :
    split? 0 (text (inside ++ ('}', j) :: rest)) = some (text inside, text rest) := by
  have hclosing : split? 0 (text (('}', j) :: rest)) = some ([], text rest) := by
    simp [split?]
  rw [text_append, h.split?_append, hclosing]
  simp

/-- Where a walk ends: at the end of the text, before a brace that closes one group more than are open, or
before a backslash with nothing after it. -/
theorem walk_cases (n : Nat) (s : List Placed) :
    (∃ m, Walk n s m) ∨ (∃ x j z, s = x ++ ('}', j) :: z ∧ Walk n x 0) ∨
      ∃ x j m, s = x ++ [('\\', j)] ∧ Walk n x m := by
  induction s using unitInduction generalizing n with
  | nil => exact Or.inl ⟨n, .nil⟩
  | lone i => exact Or.inr (Or.inr ⟨[], i, n, rfl, .nil⟩)
  | escape i c s ih =>
    rcases ih n with ⟨m, h⟩ | ⟨x, j, z, rfl, h⟩ | ⟨x, j, m, rfl, h⟩
    · exact Or.inl ⟨m, .escape h⟩
    · exact Or.inr (Or.inl ⟨_ :: _ :: x, j, z, rfl, .escape h⟩)
    · exact Or.inr (Or.inr ⟨_ :: _ :: x, j, m, rfl, .escape h⟩)
  | single c s hc ih =>
    -- Only a closing brace with no group open ends the walk here.
    by_cases hend : c.1 = '}' ∧ n = 0
    · obtain ⟨hclosing, rfl⟩ := hend
      exact Or.inr (Or.inl ⟨[], c.2, s, by rw [← hclosing]; rfl, .nil⟩)
    · have hstep : ∃ k, ∀ x m, Walk k x m → Walk n (c :: x) m := by
        obtain ⟨c, i⟩ := c
        by_cases hopening : c = '{'
        · subst hopening
          exact ⟨n + 1, fun x m h => .opening h⟩
        · by_cases hclosing : c = '}'
          · subst hclosing
            cases n with
            | zero => exact absurd ⟨rfl, rfl⟩ hend
            | succ n => exact ⟨n, fun x m h => .closing h⟩
          · exact ⟨n, fun x m h => .plain ⟨hc, hopening, hclosing⟩ h⟩
      obtain ⟨k, hstep⟩ := hstep
      rcases ih k with ⟨m, h⟩ | ⟨x, j, z, rfl, h⟩ | ⟨x, j, m, rfl, h⟩
      · exact Or.inl ⟨m, hstep s m h⟩
      · exact Or.inr (Or.inl ⟨c :: x, j, z, rfl, hstep x 0 h⟩)
      · exact Or.inr (Or.inr ⟨c :: x, j, m, rfl, hstep x m h⟩)

/-- A walk that ends with fewer groups open than it starts with closes the last of them. -/
theorem Walk.exists_closing (h : Walk n s m) (hlt : m < n) :
    ∃ x j z, s = x ++ ('}', j) :: z ∧ Balanced x := by
  rcases walk_cases 0 s with ⟨k, hwalk⟩ | hclosing | ⟨x, j, k, rfl, hwalk⟩
  · have heq : m = k + n := h.unique (by simpa only [Nat.zero_add] using hwalk.shift n)
    omega
  · exact hclosing
  · have hwalk : Walk n x (k + n) := by simpa only [Nat.zero_add] using hwalk.shift n
    exact absurd (hwalk.of_append h) not_walk_lone

/-- The last group that is open behind a walk was opened in it, or else before it and the walk stays inside. -/
theorem Walk.exists_opening (h : Walk n s (m + 1)) :
    (∃ y i x, s = y ++ ('{', i) :: x ∧ Walk n y m ∧ Balanced x) ∨ ∃ k, n = m + 1 + k ∧ Walk k s 0 := by
  generalize hend : m + 1 = e at h
  induction h with
  | nil => exact Or.inr ⟨0, by omega, .nil⟩
  | escape _ ih =>
    rcases ih hend with ⟨y, i, x, rfl, hy, hx⟩ | ⟨k, hk, hs⟩
    · exact Or.inl ⟨_ :: _ :: y, i, x, rfl, .escape hy, hx⟩
    · exact Or.inr ⟨k, hk, .escape hs⟩
  | @opening n e i s _ ih =>
    rcases ih hend with ⟨y, j, x, rfl, hy, hx⟩ | ⟨k, hk, hs⟩
    · exact Or.inl ⟨('{', i) :: y, j, x, rfl, .opening hy, hx⟩
    · cases k with
      | zero =>
        -- This brace is the one.
        obtain rfl : n = m := by omega
        exact Or.inl ⟨[], i, s, rfl, .nil, hs⟩
      | succ k => exact Or.inr ⟨k, by omega, .opening hs⟩
  | closing _ ih =>
    rcases ih hend with ⟨y, i, x, rfl, hy, hx⟩ | ⟨k, rfl, hs⟩
    · exact Or.inl ⟨_ :: y, i, x, rfl, .closing hy, hx⟩
    · exact Or.inr ⟨k + 1, by omega, .closing hs⟩
  | plain hc _ ih =>
    rcases ih hend with ⟨y, i, x, rfl, hy, hx⟩ | ⟨k, hk, hs⟩
    · exact Or.inl ⟨_ :: y, i, x, rfl, .plain hc hy, hx⟩
    · exact Or.inr ⟨k, hk, .plain hc hs⟩

/-- A brace that a balanced text opens is closed in it. -/
theorem Balanced.exists_closing (h : Balanced (x ++ ('{', i) :: y)) (hx : Units x) :
    ∃ u j z, y = u ++ ('}', j) :: z ∧ Balanced u := by
  obtain ⟨k, -, hy⟩ := h.split hx
  cases hy with
  | opening hy => exact hy.exists_closing (Nat.succ_pos k)
  | plain hc _ => exact absurd rfl hc.2.1

/-- A brace that closes a group of a balanced text has been opened in it. -/
theorem Balanced.exists_opening (h : Balanced (x ++ ('}', j) :: y)) (hx : Units x) :
    ∃ u i z, x = u ++ ('{', i) :: z ∧ Units u ∧ Balanced z := by
  obtain ⟨k, hwalk, hy⟩ := h.split hx
  cases hy with
  | closing _ =>
    rcases hwalk.exists_opening with ⟨u, i, z, rfl, hu, hz⟩ | ⟨k, hk, -⟩
    · exact ⟨u, i, z, rfl, hu.units, hz⟩
    · omega
  | plain hc _ => exact absurd rfl hc.2.2

/-- Before a plain character of a balanced text there is a balanced text, or the character is inside a group. -/
theorem Balanced.before_or_inside (h : Balanced (x ++ c :: y)) (hx : Units x)
    (hc : c.1 ≠ '\\' ∧ c.1 ≠ '{' ∧ c.1 ≠ '}') :
    Balanced x ∨ ∃ u i v w j z, x = u ++ ('{', i) :: v ∧ y = w ++ ('}', j) :: z ∧ Units u ∧
      Balanced (v ++ c :: w) := by
  obtain ⟨k, hwalk, hrest⟩ := h.split hx
  cases k with
  | zero => exact Or.inl hwalk
  | succ k =>
    rcases hwalk.exists_opening with ⟨u, i, v, rfl, hu, hv⟩ | ⟨k', hk', -⟩
    · obtain ⟨w, j, z, rfl, hw⟩ := (hrest.of_plain hc).exists_closing (Nat.succ_pos k)
      exact Or.inr ⟨u, i, v, w, j, z, rfl, rfl, hu.units, hv.append (.plain hc hw)⟩
    · omega

/-- What can be split off ends where a walk does. -/
theorem exists_walk_of_split? {found : List Char × List Char} (h : split? n (text s) = some found) :
    ∃ x j z, s = x ++ ('}', j) :: z ∧ Walk n x 0 := by
  rcases walk_cases n s with ⟨m, hwalk⟩ | hclosing | ⟨x, j, m, rfl, hwalk⟩
  · have hnone := hwalk.split?_append []
    rw [List.append_nil, h] at hnone
    simp [split?] at hnone
  · exact hclosing
  · have hnone := hwalk.split?_append (text [('\\', j)])
    rw [← text_append, h] at hnone
    simp [split?] at hnone

/-- Where a group that is open before a balanced text is closed, which does not depend on the balanced text:
nowhere, behind it or before it. -/
theorem closing_cases {front : List Placed} (hfront : Units front) (after : List Placed) :
    (∀ r, Balanced r → split? 0 (text (front ++ (r ++ after))) = none) ∨
      (∃ x j z, after = x ++ ('}', j) :: z ∧ ∀ r, Balanced r → Balanced (front ++ (r ++ x))) ∨
      ∃ x j z, front = x ++ ('}', j) :: z ∧ Balanced x ∧ Units z := by
  rcases walk_cases 0 front with ⟨m, hwalk⟩ | ⟨x, j, z, rfl, hx⟩ | ⟨x, j, m, rfl, hx⟩
  · cases hsplit : split? m (text after) with
    | none =>
      refine Or.inl fun r hr => ?_
      rw [text_append, text_append, hwalk.split?_append, (hr.walk m).split?_append, hsplit]
      rfl
    | some found =>
      obtain ⟨x, j, z, rfl, hx⟩ := exists_walk_of_split? hsplit
      exact Or.inr (Or.inl ⟨x, j, z, rfl, fun r hr => hwalk.append ((hr.walk m).append hx)⟩)
  · have hz : Units z := (hx.units.of_append hfront).of_single (by simp)
    exact Or.inr (Or.inr ⟨x, j, z, rfl, hx, hz⟩)
  · -- The backslash at the end would not be a whole unit.
    cases hx.units.of_append hfront with
    | single hc _ => exact absurd rfl hc

/-- A brace that opens a balanced text is closed. -/
theorem Balanced.of_single (h : Balanced (c :: s)) (hc : c.1 ≠ '\\')
    (hopen : c.1 = '{' → split? 0 (text s) = none) : (c.1 ≠ '{' ∧ c.1 ≠ '}') ∧ Balanced s := by
  cases h with
  | escape _ => exact absurd rfl hc
  | plain hc h => exact ⟨hc.2, h⟩
  | opening h =>
    obtain ⟨x, j, z, rfl, hx⟩ := h.exists_closing Nat.one_pos
    have hsplit := hopen rfl
    rw [split?_group hx] at hsplit
    cases hsplit

/-! ### Groups -/

/-- Whether a pattern has a group, with these texts before, in and after its braces. -/
structure HasGroup (p before inside after : List Placed) : Prop where
  units : Units before
  balanced : Balanced inside
  eq : ∃ i j, p = before ++ ('{', i) :: (inside ++ ('}', j) :: after)

theorem hasGroup_escape_iff {before after : List Placed} :
    HasGroup (('\\', i) :: c :: s) before inside after ↔
      ∃ front, before = ('\\', i) :: c :: front ∧ HasGroup s front inside after := by
  constructor
  · rintro ⟨hunits, hinside, i', j', heq⟩
    cases hunits with
    | nil => cases (List.cons.inj heq).1
    | @escape i'' d front hfront =>
      obtain ⟨h₁, hrest⟩ := List.cons.inj heq
      obtain ⟨h₂, hrest⟩ := List.cons.inj hrest
      exact ⟨front, by rw [h₁, h₂], hfront, hinside, i', j', hrest⟩
    | single hd _ =>
      have hhead := (List.cons.inj heq).1
      exact absurd (by rw [← hhead]) hd
  · rintro ⟨front, rfl, hfront, hinside, i', j', rfl⟩
    exact ⟨.escape hfront, hinside, i', j', rfl⟩

theorem hasGroup_single_iff {before after : List Placed} (hc : c.1 ≠ '\\') :
    HasGroup (c :: s) before inside after ↔
      (before = [] ∧ c.1 = '{' ∧ Balanced inside ∧ ∃ j, s = inside ++ ('}', j) :: after) ∨
        ∃ front, before = c :: front ∧ HasGroup s front inside after := by
  constructor
  · rintro ⟨hunits, hinside, i', j', heq⟩
    cases hunits with
    | nil =>
      obtain ⟨rfl, hrest⟩ := List.cons.inj heq
      exact Or.inl ⟨rfl, rfl, hinside, j', hrest⟩
    | escape _ =>
      have hhead := (List.cons.inj heq).1
      exact absurd (by rw [hhead]) hc
    | @single d front _ hfront =>
      obtain ⟨rfl, hrest⟩ := List.cons.inj heq
      exact Or.inr ⟨front, rfl, hfront, hinside, i', j', hrest⟩
  · rintro (⟨rfl, hopening, hinside, j', rfl⟩ | ⟨front, rfl, hfront, hinside, i', j', rfl⟩)
    · exact ⟨.nil, hinside, c.2, j', by rw [← hopening]; rfl⟩
    · exact ⟨.single hc hfront, hinside, i', j', rfl⟩

theorem pairsFrom_single {c : Char} (hc : c ≠ '\\') (start : Nat) (s : List Char) :
    pairsFrom start (c :: s) =
      (if c = '{' then (split? 0 s).toList.map fun found => (start, start + 1 + found.1.length) else []) ++
        pairsFrom (start + 1) s := by
  rw [pairsFrom]
  · split
    · cases split? 0 s <;> rfl
    · rfl
  · exact fun h => absurd h hc
  · exact fun _ _ h => absurd h hc

/-- The pairs of matching braces are those around the groups. -/
theorem mem_pairsFrom_iff {p : List Placed} {start : Nat} {pair : Nat × Nat} :
    pair ∈ pairsFrom start (text p) ↔ ∃ before inside after, HasGroup p before inside after ∧
      pair = (start + before.length, start + before.length + 1 + inside.length) := by
  induction p using unitInduction generalizing start with
  | nil =>
    refine ⟨fun h => (by cases h), ?_⟩
    rintro ⟨before, inside, after, ⟨-, -, i, j, heq⟩, -⟩
    cases before <;> cases heq
  | lone i =>
    refine ⟨fun h => (by cases h), ?_⟩
    rintro ⟨before, inside, after, ⟨-, -, i', j, heq⟩, -⟩
    cases before with
    | nil => cases (List.cons.inj heq).1
    | cons d front => cases front <;> cases (List.cons.inj heq).2
  | escape i c s ih =>
    -- The unit takes two places, and no group begins in it.
    have hpairs : pairsFrom start (text (('\\', i) :: c :: s)) = pairsFrom (start + 2) (text s) := by
      rw [text_cons, text_cons, pairsFrom]
    rw [hpairs, ih]
    constructor
    · rintro ⟨before, inside, after, hgroup, rfl⟩
      refine ⟨_, inside, after, hasGroup_escape_iff.2 ⟨before, rfl, hgroup⟩, ?_⟩
      simp only [List.length_cons, Prod.mk.injEq]
      omega
    · rintro ⟨before, inside, after, hgroup, rfl⟩
      obtain ⟨front, rfl, hfront⟩ := hasGroup_escape_iff.1 hgroup
      refine ⟨front, inside, after, hfront, ?_⟩
      simp only [List.length_cons, Prod.mk.injEq]
      omega
  | single c s hc ih =>
    rw [text_cons, pairsFrom_single hc, List.mem_append, ih]
    constructor
    · rintro (h | ⟨before, inside, after, hgroup, rfl⟩)
      · -- A pair that starts here is the one around what is split off.
        by_cases hopening : c.1 = '{'
        · rw [if_pos hopening, List.mem_map] at h
          obtain ⟨found, hfound, rfl⟩ := h
          rw [Option.mem_toList] at hfound
          obtain ⟨x, j, z, rfl, hx⟩ := exists_walk_of_split? hfound
          rw [split?_group hx] at hfound
          obtain rfl := Option.some.inj hfound
          exact ⟨[], x, z, (hasGroup_single_iff hc).2 (Or.inl ⟨rfl, hopening, hx, j, rfl⟩), by simp⟩
        · rw [if_neg hopening] at h
          cases h
      · refine ⟨_, inside, after, (hasGroup_single_iff hc).2 (Or.inr ⟨before, rfl, hgroup⟩), ?_⟩
        simp only [List.length_cons, Prod.mk.injEq]
        omega
    · rintro ⟨before, inside, after, hgroup, rfl⟩
      rcases (hasGroup_single_iff hc).1 hgroup with ⟨rfl, hopening, hinside, j, rfl⟩ | ⟨front, rfl, hfront⟩
      · refine Or.inl ?_
        rw [if_pos hopening, split?_group hinside]
        simp
      · refine Or.inr ⟨front, inside, after, hfront, ?_⟩
        simp only [List.length_cons, Prod.mk.injEq]
        omega

end Brace

end LineEndings.Glob

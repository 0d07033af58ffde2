/-
What the braces of a pattern expand to.

An expansion replaces groups by the texts of their branches, one after another in any order, until no group
is left (`Expansion`). `Chooses` reads a pattern once from its start instead, and chooses a branch of each
group where it comes to it. Both come to the same (`expansion_iff_chooses`):

* `chooses_append_iff` — what is chosen in a balanced text is chosen apart from what follows;
* `chooses_of_replaced` — so a branch that has replaced its group could have been chosen in its place;
* `Chooses.replaces` — and what is chosen can be reached by replacing group after group.
-/
import LineEndings.Proofs.Glob.Parts
import Mathlib.Logic.Relation

namespace LineEndings.Glob

open Brace

variable {α β : Type}

/-! ### Expansions -/

/-- Replacing one group of a pattern by one of its branches. The pattern is a list of characters, or of
things that each have a character. -/
def Replaces (char : α → Char) (p q : List α) : Prop :=
  ∃ pair ∈ pairs (p.map char), ∃ range ∈ branchRanges (p.map char) pair.1 pair.2,
    q = p.take pair.1 ++ (slice p range ++ p.drop (pair.2 + 1))

/-- What a pattern becomes when groups are replaced until none is left. -/
def Expansion (char : α → Char) (p e : List α) : Prop :=
  Relation.ReflTransGen (Replaces char) p e ∧ pairs (e.map char) = []

theorem map_slice (f : α → β) (p : List α) (range : Nat × Nat) :
    (slice p range).map f = slice (p.map f) range := by
  rw [slice, slice, List.map_drop, List.map_take]

theorem replaces_map_iff {f : α → β} {char : β → Char} {p : List α} {q : List β} :
    Replaces char (p.map f) q ↔ ∃ q', Replaces (char ∘ f) p q' ∧ q = q'.map f := by
  constructor
  · rintro ⟨pair, hpair, range, hrange, rfl⟩
    rw [List.map_map] at hpair hrange
    refine ⟨_, ⟨pair, hpair, range, hrange, rfl⟩, ?_⟩
    rw [List.map_append, List.map_append, List.map_take, List.map_drop, map_slice]
  · rintro ⟨_, ⟨pair, hpair, range, hrange, rfl⟩, rfl⟩
    refine ⟨pair, by rwa [List.map_map], range, by rwa [List.map_map], ?_⟩
    rw [List.map_append, List.map_append, List.map_take, List.map_drop, map_slice]

/-- Expanding does not depend on what else there is to a character. -/
theorem expansion_map_iff {f : α → β} {char : β → Char} {p : List α} {e : List β} :
    Expansion char (p.map f) e ↔ ∃ e', Expansion (char ∘ f) p e' ∧ e = e'.map f := by
  constructor
  · rintro ⟨hsteps, hpairs⟩
    have hlift : ∃ e', Relation.ReflTransGen (Replaces (char ∘ f)) p e' ∧ e = e'.map f := by
      clear hpairs
      induction hsteps with
      | refl => exact ⟨p, .refl, rfl⟩
      | tail _ hstep ih =>
        obtain ⟨q, hq, rfl⟩ := ih
        obtain ⟨e', he', rfl⟩ := replaces_map_iff.1 hstep
        exact ⟨e', hq.tail he', rfl⟩
    obtain ⟨e', he', rfl⟩ := hlift
    exact ⟨e', ⟨he', by rwa [List.map_map] at hpairs⟩, rfl⟩
  · rintro ⟨e', ⟨hsteps, hpairs⟩, rfl⟩
    refine ⟨?_, by rwa [List.map_map]⟩
    exact hsteps.lift (List.map f) fun _ q hstep => replaces_map_iff.2 ⟨q, hstep, rfl⟩

variable {n m k : Nat} {i j : Nat} {c : Placed} {s x y inside rest : List Placed}

/-- Replacing a group, said without positions. -/
theorem replaces_iff {p q : List Placed} :
    Replaces Prod.fst p q ↔ ∃ before inside after, HasGroup p before inside after ∧
      ∃ part ∈ parts inside, q = before ++ (part ++ after) := by
  have hcut : ∀ {before inside after}, HasGroup p before inside after →
      p.take before.length = before ∧ p.drop (before.length + 1 + inside.length + 1) = after := by
    rintro before inside after ⟨-, -, i, j, rfl⟩
    refine ⟨List.take_left, ?_⟩
    have heq : before ++ ('{', i) :: (inside ++ ('}', j) :: after) =
        (before ++ ('{', i) :: (inside ++ [('}', j)])) ++ after := by simp
    rw [heq]
    exact List.drop_left' (by simp; omega)
  constructor
  · rintro ⟨pair, hpair, range, hrange, rfl⟩
    obtain ⟨before, inside, after, hgroup, rfl⟩ := mem_pairsFrom_iff.1 hpair
    rw [Nat.zero_add] at hrange ⊢
    obtain ⟨hbefore, hafter⟩ := hcut hgroup
    refine ⟨before, inside, after, hgroup, slice p range, ?_, by rw [hbefore, hafter]⟩
    rw [← map_slice_branchRanges hgroup]
    exact List.mem_map_of_mem hrange
  · rintro ⟨before, inside, after, hgroup, part, hpart, rfl⟩
    obtain ⟨hbefore, hafter⟩ := hcut hgroup
    rw [← map_slice_branchRanges hgroup] at hpart
    obtain ⟨range, hrange, rfl⟩ := List.mem_map.1 hpart
    refine ⟨(before.length, before.length + 1 + inside.length), ?_, range, hrange, ?_⟩
    · exact mem_pairsFrom_iff.2 ⟨before, inside, after, hgroup, by rw [Nat.zero_add]⟩
    · rw [hbefore, hafter]

theorem pairs_eq_nil_iff {p : List Placed} :
    pairs (text p) = [] ↔ ∀ before inside after, ¬ HasGroup p before inside after := by
  rw [List.eq_nil_iff_forall_not_mem]
  constructor
  · intro h before inside after hgroup
    exact h _ (mem_pairsFrom_iff.2 ⟨before, inside, after, hgroup, rfl⟩)
  · intro h pair hpair
    obtain ⟨before, inside, after, hgroup, -⟩ := mem_pairsFrom_iff.1 hpair
    exact h before inside after hgroup

/-! ### Choosing -/

/-- What a pattern becomes when it is read from its start and a branch is chosen of each group. -/
inductive Chooses : List Placed → List Placed → Prop
  | nil : Chooses [] []
  | lone {i : Nat} : Chooses [('\\', i)] [('\\', i)]
  | escape {i : Nat} {c : Placed} {s e : List Placed} (h : Chooses s e) :
      Chooses (('\\', i) :: c :: s) (('\\', i) :: c :: e)
  | plain {c : Placed} {s e : List Placed} (hc : c.1 ≠ '\\')
      (hopen : c.1 = '{' → split? 0 (text s) = none) (h : Chooses s e) : Chooses (c :: s) (c :: e)
  | group {i j : Nat} {inside rest part e e' : List Placed} (hinside : Balanced inside)
      (hpart : part ∈ parts inside) (h : Chooses part e) (h' : Chooses rest e') :
      Chooses (('{', i) :: (inside ++ ('}', j) :: rest)) (e ++ e')

/-- Induction over a pattern as `Chooses` reads it. -/
@[elab_as_elim]
theorem patternInduction {motive : List Placed → Prop} (nil : motive [])
    (lone : ∀ i, motive [('\\', i)])
    (escape : ∀ i c s, motive s → motive (('\\', i) :: c :: s))
    (plain : ∀ c s, c.1 ≠ '\\' → (c.1 = '{' → split? 0 (text s) = none) → motive s → motive (c :: s))
    (group : ∀ i inside j rest, Balanced inside → (∀ part ∈ parts inside, motive part) →
      motive rest → motive (('{', i) :: (inside ++ ('}', j) :: rest))) (p : List Placed) : motive p := by
  match p with
  | [] => exact nil
  | (c, i) :: s =>
    by_cases hescape : c = '\\'
    · subst hescape
      match s with
      | [] => exact lone i
      | d :: s => exact escape i d s (patternInduction nil lone escape plain group s)
    · by_cases hopen : c = '{' → split? 0 (text s) = none
      · exact plain (c, i) s hescape hopen (patternInduction nil lone escape plain group s)
      · obtain ⟨rfl, hsplit⟩ := Classical.not_imp.1 hopen
        obtain ⟨found, hfound⟩ := Option.ne_none_iff_exists'.1 hsplit
        obtain ⟨inside, j, rest, rfl, hinside⟩ := exists_walk_of_split? hfound
        refine group i inside j rest hinside (fun part hpart => ?_)
          (patternInduction nil lone escape plain group rest)
        have hlength : part.length ≤ inside.length := (sublist_of_mem_parts hpart).length_le
        exact patternInduction nil lone escape plain group part
termination_by p.length
decreasing_by all_goals simp_all; try omega

/-- Induction over a balanced pattern. -/
theorem balancedInduction {motive : List Placed → Prop} (nil : motive [])
    (escape : ∀ i c s, motive s → motive (('\\', i) :: c :: s))
    (plain : ∀ c s, c.1 ≠ '\\' ∧ c.1 ≠ '{' ∧ c.1 ≠ '}' → motive s → motive (c :: s))
    (group : ∀ i inside j rest, Balanced inside → (∀ part ∈ parts inside, motive part) →
      motive rest → motive (('{', i) :: (inside ++ ('}', j) :: rest))) (h : Balanced x) : motive x := by
  induction x using patternInduction with
  | nil => exact nil
  | lone i =>
    cases h with
    | plain hc _ => exact absurd rfl hc.1
  | escape i c s ih =>
    cases h with
    | escape h => exact escape i c s (ih h)
    | plain hc _ => exact absurd rfl hc.1
  | plain c s hc hopen ih =>
    obtain ⟨hbrace, hs⟩ := h.of_single hc hopen
    exact plain c s ⟨hc, hbrace⟩ (ih hs)
  | group i inside j rest hinside ihparts ih =>
    refine group i inside j rest hinside (fun part hpart => ?_) (ih (hinside.of_group h))
    exact ihparts part hpart (solid_of_mem_parts hinside hpart).balanced

section

variable {e : List Placed}

theorem chooses_nil_iff : Chooses [] e ↔ e = [] := by
  constructor
  · rintro ⟨⟩
    rfl
  · rintro rfl
    exact .nil

theorem chooses_lone_iff : Chooses [('\\', i)] e ↔ e = [('\\', i)] := by
  constructor
  · intro h
    cases h with
    | lone => rfl
    | plain hc _ _ => exact absurd rfl hc
  · rintro rfl
    exact .lone

theorem chooses_escape_iff :
    Chooses (('\\', i) :: c :: s) e ↔ ∃ e', Chooses s e' ∧ e = ('\\', i) :: c :: e' := by
  constructor
  · intro h
    cases h with
    | escape h => exact ⟨_, h, rfl⟩
    | plain hc _ _ => exact absurd rfl hc
  · rintro ⟨e', h, rfl⟩
    exact .escape h

theorem chooses_plain_iff (hc : c.1 ≠ '\\') (hopen : c.1 = '{' → split? 0 (text s) = none) :
    Chooses (c :: s) e ↔ ∃ e', Chooses s e' ∧ e = c :: e' := by
  constructor
  · intro h
    cases h with
    | lone => exact absurd rfl hc
    | escape _ => exact absurd rfl hc
    | plain _ _ h => exact ⟨_, h, rfl⟩
    | group hinside _ _ _ =>
      have hsplit := hopen rfl
      rw [split?_group hinside] at hsplit
      cases hsplit
  · rintro ⟨e', h, rfl⟩
    exact .plain hc hopen h

/-- A group ends in one place only. -/
theorem group_inj {x' y' : List Placed} {j' : Nat} (hx : Balanced x) (hx' : Balanced x')
    (h : x ++ ('}', j) :: y = x' ++ ('}', j') :: y') : x = x' ∧ y = y' := by
  have hsplit : split? 0 (text (x ++ ('}', j) :: y)) = some (text x, text y) := split?_group hx
  rw [h, split?_group hx'] at hsplit
  have hlength : x.length = x'.length := by
    have htext := congrArg List.length (Prod.mk.inj (Option.some.inj hsplit)).1
    rw [length_text, length_text] at htext
    exact htext.symm
  obtain ⟨hleft, hright⟩ := List.append_inj h hlength
  exact ⟨hleft, (List.cons.inj hright).2⟩

theorem chooses_group_iff (hinside : Balanced inside) (hs : s = inside ++ ('}', j) :: rest) :
    Chooses (('{', i) :: s) e ↔
      ∃ part ∈ parts inside, ∃ e₁ e₂, Chooses part e₁ ∧ Chooses rest e₂ ∧ e = e₁ ++ e₂ := by
  constructor
  · intro h
    cases h with
    | plain _ hopen _ =>
      have hsplit := hopen rfl
      rw [hs, split?_group hinside] at hsplit
      cases hsplit
    | group hinside' hpart h h' =>
      obtain ⟨rfl, rfl⟩ := group_inj hinside hinside' hs.symm
      exact ⟨_, hpart, _, _, h, h', rfl⟩
  · rintro ⟨part, hpart, e₁, e₂, h, h', rfl⟩
    subst hs
    exact .group hinside hpart h h'

/-- What is chosen in a balanced text is chosen apart from what follows. -/
theorem chooses_append_iff (h : Balanced x) :
    Chooses (x ++ y) e ↔ ∃ e₁ e₂, Chooses x e₁ ∧ Chooses y e₂ ∧ e = e₁ ++ e₂ := by
  -- The induction is on the balanced text alone: its groups are closed in it, so what follows cannot change
  -- which ones there are.
  refine balancedInduction (motive := fun x => ∀ e, Chooses (x ++ y) e ↔
    ∃ e₁ e₂, Chooses x e₁ ∧ Chooses y e₂ ∧ e = e₁ ++ e₂) ?nil ?escape ?plain ?group h e
  case nil =>
    intro e
    simp [chooses_nil_iff]
  case escape =>
    intro i c s ih e
    simp only [List.cons_append, chooses_escape_iff, ih]
    constructor
    · rintro ⟨_, ⟨e₁, e₂, h₁, h₂, rfl⟩, rfl⟩
      exact ⟨_, e₂, ⟨e₁, h₁, rfl⟩, h₂, rfl⟩
    · rintro ⟨_, e₂, ⟨e₁, h₁, rfl⟩, h₂, rfl⟩
      exact ⟨_, ⟨e₁, e₂, h₁, h₂, rfl⟩, rfl⟩
  case plain =>
    intro c s hc ih e
    have hopen : ∀ t, c.1 = '{' → split? 0 (text t) = none := fun _ h => absurd h hc.2.1
    simp only [List.cons_append, chooses_plain_iff hc.1 (hopen _), ih]
    constructor
    · rintro ⟨_, ⟨e₁, e₂, h₁, h₂, rfl⟩, rfl⟩
      exact ⟨_, e₂, ⟨e₁, h₁, rfl⟩, h₂, rfl⟩
    · rintro ⟨_, e₂, ⟨e₁, h₁, rfl⟩, h₂, rfl⟩
      exact ⟨_, ⟨e₁, e₂, h₁, h₂, rfl⟩, rfl⟩
  case group =>
    intro i inside j rest hinside _ ih e
    simp only [List.cons_append, List.append_assoc, chooses_group_iff hinside rfl, ih]
    constructor
    · rintro ⟨part, hpart, e₁, _, h₁, ⟨e₂, e₃, h₂, h₃, rfl⟩, rfl⟩
      exact ⟨_, e₃, ⟨part, hpart, e₁, e₂, h₁, h₂, rfl⟩, h₃, by rw [List.append_assoc]⟩
    · rintro ⟨_, e₃, ⟨part, hpart, e₁, e₂, h₁, h₂, rfl⟩, h₃, rfl⟩
      exact ⟨part, hpart, e₁, _, h₁, ⟨e₂, e₃, h₂, h₃, rfl⟩, by rw [List.append_assoc]⟩

/-- Something can be chosen in every pattern. -/
theorem exists_chooses (p : List Placed) : ∃ e, Chooses p e := by
  induction p using patternInduction with
  | nil => exact ⟨[], .nil⟩
  | lone i => exact ⟨_, .lone⟩
  | escape i c s ih =>
    obtain ⟨e, h⟩ := ih
    exact ⟨_, .escape h⟩
  | plain c s hc hopen ih =>
    obtain ⟨e, h⟩ := ih
    exact ⟨_, .plain hc hopen h⟩
  | group i inside j rest hinside ihparts ih =>
    obtain ⟨part, hpart⟩ := List.exists_mem_of_ne_nil _ (partsFrom_ne_nil 0 inside)
    obtain ⟨e₁, h₁⟩ := ihparts part hpart
    obtain ⟨e₂, h₂⟩ := ih
    exact ⟨_, .group hinside hpart h₁ h₂⟩

theorem Chooses.sublist {p : List Placed} (h : Chooses p e) : e.Sublist p := by
  induction h with
  | nil => exact .slnil
  | lone => exact .refl _
  | escape _ ih => exact (ih.cons_cons _).cons_cons _
  | plain _ _ _ ih => exact ih.cons_cons _
  | @group i j inside rest part e e' hinside hpart _ _ ih ih' =>
    have hleft : e.Sublist inside := ih.trans (sublist_of_mem_parts hpart)
    exact (hleft.append (ih'.cons _)).cons _

/-! ### Where no group is left -/

/-- Whether a text has only whole units, and no braces among them. -/
inductive Flat : List Placed → Prop
  | nil : Flat []
  | escape {i : Nat} {c : Placed} {s : List Placed} (h : Flat s) : Flat (('\\', i) :: c :: s)
  | plain {c : Placed} {s : List Placed} (hc : c.1 ≠ '\\' ∧ c.1 ≠ '{' ∧ c.1 ≠ '}') (h : Flat s) :
      Flat (c :: s)

theorem Flat.of_escape (h : Flat (('\\', i) :: c :: s)) : Flat s := by
  cases h with
  | escape h => exact h
  | plain hc _ => exact absurd rfl hc.1

theorem Flat.of_single (hc : c.1 ≠ '\\') (h : Flat (c :: s)) : Flat s := by
  cases h with
  | escape _ => exact absurd rfl hc
  | plain _ h => exact h

theorem Flat.append (hx : Flat x) (hy : Flat y) : Flat (x ++ y) := by
  induction hx with
  | nil => exact hy
  | escape _ ih => exact .escape ih
  | plain hc _ ih => exact .plain hc ih

theorem Flat.balanced (h : Flat x) : Balanced x := by
  induction h with
  | nil => exact .nil
  | escape _ ih => exact .escape ih
  | plain hc _ ih => exact .plain hc ih

/-- What is chosen in a balanced text has no braces left. -/
theorem flat_of_chooses (hx : Balanced x) (h : Chooses x e) : Flat e := by
  refine balancedInduction (motive := fun x => ∀ e, Chooses x e → Flat e) ?nil ?escape ?plain ?group hx e h
  case nil =>
    rintro e ⟨⟩
    exact .nil
  case escape =>
    intro i c s ih e h
    obtain ⟨e', h', rfl⟩ := chooses_escape_iff.1 h
    exact .escape (ih e' h')
  case plain =>
    intro c s hc ih e h
    obtain ⟨e', h', rfl⟩ := (chooses_plain_iff hc.1 fun hopen => absurd hopen hc.2.1).1 h
    exact .plain hc (ih e' h')
  case group =>
    intro i inside j rest hinside ihparts ih e h
    obtain ⟨part, hpart, e₁, e₂, h₁, h₂, rfl⟩ := (chooses_group_iff hinside rfl).1 h
    exact (ihparts part hpart e₁ h₁).append (ih e₂ h₂)

/-- Choosing does not change whether a group that is open before the text is closed in it. -/
theorem Chooses.split?_eq_none_iff {p : List Placed} (h : Chooses p e) (n : Nat) :
    split? n (text e) = none ↔ split? n (text p) = none := by
  induction h generalizing n with
  | nil => rfl
  | lone => rfl
  | escape _ ih =>
    simp only [text_cons, split?_escape, Option.map_eq_none_iff, ih]
  | @plain c s e hc _ _ ih =>
    obtain ⟨c, i⟩ := c
    by_cases hopening : c = '{'
    · subst hopening
      simp only [text_cons, split?_opening, Option.map_eq_none_iff, ih]
    · by_cases hclosing : c = '}'
      · subst hclosing
        cases n with
        | zero => simp [split?]
        | succ n => simp only [text_cons, split?_closing, Option.map_eq_none_iff, ih]
      · simp only [text_cons, split?_plain ⟨hc, hopening, hclosing⟩, Option.map_eq_none_iff, ih]
  | @group i j inside rest part e e' hinside hpart h _ _ ih =>
    have hleft := flat_of_chooses (solid_of_mem_parts hinside hpart).balanced h
    have heq : ('{', i) :: (inside ++ ('}', j) :: rest) =
        ('{', i) :: (inside ++ [('}', j)]) ++ rest := by simp
    -- Neither the group nor what is chosen of it changes how many groups are open.
    rw [heq, text_append, text_append, (hleft.balanced.walk n).split?_append,
      (hinside.group.walk n).split?_append, Option.map_eq_none_iff, Option.map_eq_none_iff, ih]

theorem hasGroup_of_flat_append {before after : List Placed} (hx : Flat x)
    (h : HasGroup (x ++ y) before inside after) : ∃ front, HasGroup y front inside after := by
  induction hx generalizing before with
  | nil => exact ⟨before, h⟩
  | escape _ ih =>
    obtain ⟨front, -, hfront⟩ := hasGroup_escape_iff.1 h
    exact ih hfront
  | plain hc _ ih =>
    rcases (hasGroup_single_iff hc.1).1 h with ⟨-, hopening, -⟩ | ⟨front, -, hfront⟩
    · exact absurd hopening hc.2.1
    · exact ih hfront

/-- No group is left. -/
theorem Chooses.not_hasGroup {p before after : List Placed} (h : Chooses p e) :
    ¬ HasGroup e before inside after := by
  induction h generalizing before with
  | nil =>
    rintro ⟨-, -, i, j, heq⟩
    cases before <;> cases heq
  | lone =>
    rintro ⟨-, -, i', j, heq⟩
    cases before with
    | nil => cases (List.cons.inj heq).1
    | cons d front => cases front <;> cases (List.cons.inj heq).2
  | escape _ ih =>
    intro hgroup
    obtain ⟨front, -, hfront⟩ := hasGroup_escape_iff.1 hgroup
    exact ih hfront
  | plain hc hopen h ih =>
    intro hgroup
    rcases (hasGroup_single_iff hc).1 hgroup with ⟨-, hopening, hinside, j, rfl⟩ | ⟨front, -, hfront⟩
    · -- The brace was not closed before, so it is not closed now.
      have hsplit := (h.split?_eq_none_iff 0).2 (hopen hopening)
      rw [split?_group hinside] at hsplit
      cases hsplit
    · exact ih hfront
  | group hinside hpart h _ _ ih =>
    intro hgroup
    have hleft := flat_of_chooses (solid_of_mem_parts hinside hpart).balanced h
    obtain ⟨front, hfront⟩ := hasGroup_of_flat_append hleft hgroup
    exact ih hfront

/-- Where there is no group, there is nothing to choose. -/
theorem chooses_iff_eq {p : List Placed} (h : ∀ before inside after, ¬ HasGroup p before inside after) :
    Chooses p e ↔ e = p := by
  induction p using patternInduction generalizing e with
  | nil => exact chooses_nil_iff
  | lone i => exact chooses_lone_iff
  | escape i c s ih =>
    have hs := fun e => @ih e fun before inside after hgroup =>
      h _ _ _ (hasGroup_escape_iff.2 ⟨before, rfl, hgroup⟩)
    simp only [chooses_escape_iff, hs, exists_eq_left]
  | plain c s hc hopen ih =>
    have hs := fun e => @ih e fun before inside after hgroup =>
      h _ _ _ ((hasGroup_single_iff hc).2 (Or.inr ⟨before, rfl, hgroup⟩))
    simp only [chooses_plain_iff hc hopen, hs, exists_eq_left]
  | group i inside j rest hinside _ _ => exact absurd ⟨.nil, hinside, i, j, rfl⟩ (h [] inside rest)

/-! ### Replacing and choosing -/

theorem Replaces.append_left {p q : List Placed} (hx : Units x) (h : Replaces Prod.fst p q) :
    Replaces Prod.fst (x ++ p) (x ++ q) := by
  obtain ⟨before, inside, after, ⟨hunits, hinside, i, j, rfl⟩, part, hpart, rfl⟩ := replaces_iff.1 h
  refine replaces_iff.2 ⟨x ++ before, inside, after, ⟨hx.append hunits, hinside, i, j, ?_⟩, part, hpart, ?_⟩
  · rw [List.append_assoc]
  · rw [List.append_assoc]

theorem Replaces.append_right {p q : List Placed} (y : List Placed) (h : Replaces Prod.fst p q) :
    Replaces Prod.fst (p ++ y) (q ++ y) := by
  obtain ⟨before, inside, after, ⟨hunits, hinside, i, j, rfl⟩, part, hpart, rfl⟩ := replaces_iff.1 h
  refine replaces_iff.2 ⟨before, inside, after ++ y, ⟨hunits, hinside, i, j, ?_⟩, part, hpart, ?_⟩
  · simp
  · simp

/-- What is chosen can be reached by replacing groups. -/
theorem Chooses.replaces {p : List Placed} (h : Chooses p e) :
    Relation.ReflTransGen (Replaces Prod.fst) p e := by
  induction h with
  | nil => exact .refl
  | lone => exact .refl
  | @escape i c s e _ ih =>
    exact ih.lift (fun q => [('\\', i), c] ++ q) fun _ _ hstep => hstep.append_left (.escape .nil)
  | @plain c s e hc _ _ ih =>
    exact ih.lift (fun q => [c] ++ q) fun _ _ hstep => hstep.append_left (.single hc .nil)
  | @group i j inside rest part e e' hinside hpart h _ ih ih' =>
    have hleft := flat_of_chooses (solid_of_mem_parts hinside hpart).balanced h
    have hfirst : Replaces Prod.fst (('{', i) :: (inside ++ ('}', j) :: rest)) (part ++ rest) :=
      replaces_iff.2 ⟨[], inside, rest, ⟨.nil, hinside, i, j, rfl⟩, part, hpart, rfl⟩
    have hpart' := ih.lift (fun q => q ++ rest) fun _ _ hstep => hstep.append_right rest
    have hrest := ih'.lift (fun q => e ++ q) fun _ _ hstep => hstep.append_left hleft.balanced.units
    exact (Relation.ReflTransGen.head hfirst hpart').trans hrest

/-- Where a solid text can stand for another one at the start of a pattern, it can stand for it anywhere. -/
theorem chooses_congr_solid {s t : List Placed} (hs : Solid s) (ht : Solid t)
    (hst : ∀ y e, Chooses (s ++ y) e → Chooses (t ++ y) e) {before after e : List Placed}
    (hunits : Units before) (h : Chooses (before ++ (s ++ after)) e) :
    Chooses (before ++ (t ++ after)) e := by
  -- On the length, since an exchange inside of a group goes on in one of its parts.
  induction hn : before.length using Nat.strongRecOn generalizing before after e with
  | ind n ih =>
    subst hn
    have ih : ∀ front : List Placed, front.length < before.length → Units front → ∀ {after e},
        Chooses (front ++ (s ++ after)) e → Chooses (front ++ (t ++ after)) e :=
      fun front hlength hfront _ _ h => ih front.length hlength hfront h rfl
    cases hunits with
    | nil => exact hst after e h
    | @escape i c front hfront =>
      obtain ⟨e', h', rfl⟩ := chooses_escape_iff.1 h
      have hlength : front.length < (('\\', i) :: c :: front).length := Nat.lt_succ_of_lt (Nat.lt_succ_self _)
      exact .escape (ih front hlength hfront h')
    | @single c front hc hfront =>
      -- Where the character opens no group, neither before nor after the exchange.
      have hplain : (∀ r, Balanced r → c.1 = '{' → split? 0 (text (front ++ (r ++ after))) = none) →
          Chooses (c :: (front ++ (t ++ after))) e := by
        intro hopen
        obtain ⟨e', h', rfl⟩ := (chooses_plain_iff hc (hopen s hs.balanced)).1 h
        exact .plain hc (hopen t ht.balanced) (ih front (by simp) hfront h')
      by_cases hopening : c.1 = '{'
      · obtain ⟨c, i⟩ := c
        subst hopening
        rcases closing_cases hfront after with hnone | ⟨x, j, z, rfl, hinside⟩ | ⟨x, j, z, rfl, hx, hz⟩
        · exact hplain fun r hr _ => hnone r hr
        · -- The exchanged text stands in one part of the group, and the other parts stay.
          have heq : ∀ r : List Placed, front ++ (r ++ (x ++ ('}', j) :: z)) =
              (front ++ (r ++ x)) ++ ('}', j) :: z := fun r => by simp
          obtain ⟨part, hpart, e₁, e₂, h₁, h₂, rfl⟩ :=
            (chooses_group_iff (hinside s hs.balanced) (heq s)).1 h
          refine (chooses_group_iff (hinside t ht.balanced) (heq t)).2 ?_
          rcases mem_parts_of_exchange hfront hs ht hpart with
            hsame | ⟨a, b, ha, hlength, rfl, hexchanged⟩
          · exact ⟨part, hsame, e₁, e₂, h₁, h₂, rfl⟩
          · exact ⟨_, hexchanged, e₁, e₂, ih a (Nat.lt_succ_of_le hlength) ha h₁, h₂, rfl⟩
        · -- The group ends before the exchanged text.
          have heq : ∀ r : List Placed, (x ++ ('}', j) :: z) ++ (r ++ after) =
              x ++ ('}', j) :: (z ++ (r ++ after)) := fun r => by simp
          have hlength : z.length < (('{', i) :: (x ++ ('}', j) :: z)).length := by
            simp only [List.length_cons, List.length_append]
            omega
          obtain ⟨part, hpart, e₁, e₂, h₁, h₂, rfl⟩ := (chooses_group_iff hx (heq s)).1 h
          exact (chooses_group_iff hx (heq t)).2 ⟨part, hpart, e₁, e₂, h₁, ih z hlength hz h₂, rfl⟩
      · exact hplain fun _ _ h => absurd h hopening

/-- A branch that has replaced its group could have been chosen in its place. -/
theorem chooses_of_replaced {before part after : List Placed} (hunits : Units before)
    (hinside : Balanced inside) (hpart : part ∈ parts inside)
    (h : Chooses (before ++ (part ++ after)) e) :
    Chooses (before ++ (('{', i) :: (inside ++ [('}', j)]) ++ after)) e := by
  have hsolid := solid_of_mem_parts hinside hpart
  refine chooses_congr_solid hsolid (solid_group hinside) (fun y e h => ?_) hunits h
  obtain ⟨e₁, e₂, h₁, h₂, rfl⟩ := (chooses_append_iff hsolid.balanced).1 h
  have hchosen : Chooses (('{', i) :: (inside ++ ('}', j) :: y)) (e₁ ++ e₂) :=
    .group hinside hpart h₁ h₂
  simpa using hchosen

/-- Expanding a pattern and choosing in it come to the same. -/
theorem expansion_iff_chooses {p : List Placed} : Expansion Prod.fst p e ↔ Chooses p e := by
  constructor
  · rintro ⟨hsteps, hpairs⟩
    induction hsteps using Relation.ReflTransGen.head_induction_on with
    | refl => exact (chooses_iff_eq (pairs_eq_nil_iff.1 hpairs)).2 rfl
    | head hstep _ ih =>
      obtain ⟨before, inside, after, ⟨hunits, hinside, i, j, rfl⟩, part, hpart, rfl⟩ :=
        replaces_iff.1 hstep
      have hchosen := chooses_of_replaced (i := i) (j := j) hunits hinside hpart ih
      simpa using hchosen
  · exact fun h => ⟨h.replaces, pairs_eq_nil_iff.2 fun _ _ _ => h.not_hasGroup⟩

end

end LineEndings.Glob

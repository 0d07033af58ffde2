/-
Where a list of patterns is cut.

`Brace.cut` counts how many braces are open, and a brace that is never closed stays open to the end of the text.
`Brace.pairs` gives such a brace no partner, and a pattern reads it as a plain character. So both mean the same
by a group only as far as the first brace that is never closed:

* `opened_eq_zero_iff` — nothing is open behind a text when every brace in it is closed there;
* `closesAll_iff` — which is when no group reaches past the text, and no brace in it stays open for good;
* `splitPatterns_eq` — so the commas outside of groups that are cut at are those before every such brace.
-/
import LineEndings.Proofs.Glob.Parts
import LineEndings.Glob.PatternSet
import Mathlib.Data.List.Nodup
import Mathlib.Data.List.Permutation
import Mathlib.Data.List.TakeWhile

namespace LineEndings.Glob

open Brace

namespace Brace

/-! ### Commas and groups by their places -/

/-- The characters that no backslash takes with it, without the backslashes. -/
def bare : List Placed → List Placed
  | [] => []
  | [('\\', _)] => []
  | ('\\', _) :: _ :: s => bare s
  | c :: s => c :: bare s

/-- The places of the characters `char` that no backslash takes with it. -/
def placesOf (char : Char) (s : List Char) : List Nat :=
  ((bare s.zipIdx).filter (·.1 = char)).map (·.2)

/-- The places of the commas between patterns: no backslash takes them with it, and no pair of matching braces
stands around them. -/
def separators (s : List Char) : List Nat :=
  (placesOf ',' s).filter fun comma => ∀ pair ∈ pairs s, ¬ (pair.1 < comma ∧ comma < pair.2)

/-- The places of the opening braces that are never closed. -/
def strays (s : List Char) : List Nat :=
  (placesOf '{' s).filter fun opening => ∀ pair ∈ pairs s, pair.1 ≠ opening

/-- The parts of a text between some places. -/
def cutAt (places : List Nat) (s : List Char) : List (List Char) :=
  (s.zipIdx.splitOnP fun c => places.contains c.2).map text

variable {n i : Nat} {c d : Placed} {s p before after front between : List Placed}

/-! ### Units and what they start with -/

/-- Whether `c` starts a unit of a text, with these texts before and after it. -/
structure Starts (p before : List Placed) (c : Placed) (after : List Placed) : Prop where
  units : Units before
  eq : p = before ++ c :: after

theorem starts_escape_iff (hd : d.1 ≠ '\\') :
    Starts (('\\', i) :: c :: s) before d after ↔
      ∃ front, before = ('\\', i) :: c :: front ∧ Starts s front d after := by
  constructor
  · rintro ⟨hbefore, heq⟩
    cases hbefore with
    | nil =>
      obtain ⟨rfl, -⟩ := List.cons.inj heq
      exact absurd rfl hd
    | @escape j e front hfront =>
      obtain ⟨h₁, hrest⟩ := List.cons.inj heq
      obtain ⟨h₂, hrest⟩ := List.cons.inj hrest
      exact ⟨front, by rw [h₁, h₂], hfront, hrest⟩
    | single he _ =>
      obtain ⟨rfl, -⟩ := List.cons.inj heq
      exact absurd rfl he
  · rintro ⟨front, rfl, hfront, rfl⟩
    exact ⟨.escape hfront, rfl⟩

theorem starts_single_iff (hc : c.1 ≠ '\\') :
    Starts (c :: s) before d after ↔
      (before = [] ∧ c = d ∧ s = after) ∨ ∃ front, before = c :: front ∧ Starts s front d after := by
  constructor
  · rintro ⟨hbefore, heq⟩
    cases hbefore with
    | nil => exact Or.inl ⟨rfl, List.cons.inj heq⟩
    | escape _ =>
      obtain ⟨rfl, -⟩ := List.cons.inj heq
      exact absurd rfl hc
    | @single e front _ hfront =>
      obtain ⟨rfl, hrest⟩ := List.cons.inj heq
      exact Or.inr ⟨front, rfl, hfront, hrest⟩
  · rintro (⟨rfl, rfl, rfl⟩ | ⟨front, rfl, hfront, rfl⟩)
    · exact ⟨.nil, rfl⟩
    · exact ⟨.single hc hfront, rfl⟩

theorem not_starts_nil : ¬ Starts [] before d after := by
  rintro ⟨-, heq⟩
  cases before <;> cases heq

theorem not_starts_lone (hd : d.1 ≠ '\\') : ¬ Starts [('\\', i)] before d after := by
  rintro ⟨-, heq⟩
  cases before with
  | nil =>
    obtain ⟨rfl, -⟩ := List.cons.inj heq
    exact hd rfl
  | cons e front => cases front <;> cases (List.cons.inj heq).2

theorem bare_single (hc : c.1 ≠ '\\') (s : List Placed) : bare (c :: s) = c :: bare s := by
  rw [bare]
  · rintro i rfl
    exact absurd rfl hc
  · rintro i d t rfl
    exact absurd rfl hc

/-- The bare characters are those that start a unit of their own. -/
theorem mem_bare_iff (hd : d.1 ≠ '\\') : d ∈ bare p ↔ ∃ before after, Starts p before d after := by
  induction p using unitInduction with
  | nil => simp [bare, not_starts_nil]
  | lone i => simp [bare, not_starts_lone hd]
  | escape i c s ih =>
    simp only [bare, ih, starts_escape_iff hd]
    exact ⟨fun ⟨before, after, h⟩ => ⟨_, after, before, rfl, h⟩,
      fun ⟨_, after, before, _, h⟩ => ⟨before, after, h⟩⟩
  | single c s hc ih =>
    simp only [bare_single hc, List.mem_cons, ih, starts_single_iff hc]
    constructor
    · rintro (rfl | ⟨before, after, h⟩)
      · exact ⟨[], s, Or.inl ⟨rfl, rfl, rfl⟩⟩
      · exact ⟨c :: before, after, Or.inr ⟨before, rfl, h⟩⟩
    · rintro ⟨_, after, ⟨rfl, rfl, rfl⟩ | ⟨before, rfl, h⟩⟩
      · exact Or.inl rfl
      · exact Or.inr ⟨before, after, h⟩

/-! ### Counting open braces -/

/-- How many braces are open behind a text that starts with `n` of them open, when a closing brace with nothing
open counts for nothing. -/
def opened (n : Nat) : List Placed → Nat
  | [] => n
  | [('\\', _)] => n
  | ('\\', _) :: _ :: s => opened n s
  | c :: s => opened (if c.1 = '{' then n + 1 else if c.1 = '}' then n - 1 else n) s

theorem opened_single (hc : c.1 ≠ '\\') (n : Nat) (s : List Placed) :
    opened n (c :: s) = opened (if c.1 = '{' then n + 1 else if c.1 = '}' then n - 1 else n) s := by
  rw [opened]
  · rintro i rfl
    exact absurd rfl hc
  · rintro i d t rfl
    exact absurd rfl hc

/-- Whether every brace that a text opens is closed in it. -/
def ClosesAll (p : List Placed) : Prop :=
  ∀ before i after, Starts p before ('{', i) after → split? 0 (text after) ≠ none

theorem closesAll_nil : ClosesAll [] :=
  fun _ _ _ h => absurd h not_starts_nil

theorem closesAll_escape_iff : ClosesAll (('\\', i) :: c :: s) ↔ ClosesAll s := by
  constructor
  · intro h before j after hs
    exact h _ j after ((starts_escape_iff (by simp)).2 ⟨before, rfl, hs⟩)
  · intro h before j after hs
    obtain ⟨front, -, hs⟩ := (starts_escape_iff (by simp)).1 hs
    exact h front j after hs

theorem closesAll_single_iff (hc : c.1 ≠ '\\') :
    ClosesAll (c :: s) ↔ (c.1 = '{' → split? 0 (text s) ≠ none) ∧ ClosesAll s := by
  constructor
  · intro h
    refine ⟨fun hopening => h [] c.2 s ⟨.nil, by rw [← hopening]; rfl⟩, fun before j after hs => ?_⟩
    exact h _ j after ((starts_single_iff hc).2 (Or.inr ⟨before, rfl, hs⟩))
  · rintro ⟨hhead, h⟩ before j after hs
    rcases (starts_single_iff hc).1 hs with ⟨-, rfl, rfl⟩ | ⟨front, -, hs⟩
    · exact hhead rfl
    · exact h front j after hs

theorem split?_closing_zero (s : List Char) : split? 0 ('}' :: s) = some ([], s) := by
  simp [split?]

/-- Nothing is open behind a text when the braces open before it are closed in it, and so are its own. -/
theorem opened_eq_zero_iff (h : Units s) :
    opened n s = 0 ↔ (∀ k < n, split? k (text s) ≠ none) ∧ ClosesAll s := by
  induction h generalizing n with
  | nil =>
    simp only [opened, closesAll_nil, and_true, text_nil, split?, ne_eq, not_true_eq_false]
    exact ⟨by rintro rfl k hk; omega, fun h => Nat.eq_zero_of_not_pos fun hpos => h 0 hpos⟩
  | escape _ ih =>
    simp only [opened, ih, closesAll_escape_iff, text_cons, split?_escape, ne_eq, Option.map_eq_none_iff]
  | @single c s hc _ ih =>
    obtain ⟨c, i⟩ := c
    rw [opened_single hc, closesAll_single_iff hc, ih, text_cons]
    by_cases hopening : c = '{'
    · -- The brace opened here comes first, and each one opened before a place later.
      subst hopening
      simp only [if_true, split?_opening, ne_eq, Option.map_eq_none_iff, forall_const, ← and_assoc,
        Nat.forall_lt_succ_left]
      tauto
    · rw [if_neg hopening]
      by_cases hclosing : c = '}'
      · subst hclosing
        cases n with
        | zero => simp
        | succ n =>
          simp only [if_true, Nat.add_sub_cancel, Nat.forall_lt_succ_left, split?_closing, split?_closing_zero,
            ne_eq, Option.map_eq_none_iff, reduceCtorEq, not_false_eq_true, true_and, hopening, false_implies]
      · simp only [if_neg hclosing, split?_plain ⟨hc, hopening, hclosing⟩, ne_eq, Option.map_eq_none_iff,
          hopening, false_implies, true_and]

/-! ### Groups around a place -/

/-- A brace is opened at its place, and the pair that starts there is the one that it is closed by. -/
theorem mem_pairs_iff (h : Starts p before ('{', i) after) {closing : Nat} :
    (before.length, closing) ∈ pairs (text p) ↔
      ∃ inside j rest, after = inside ++ ('}', j) :: rest ∧ Balanced inside ∧
        closing = before.length + 1 + inside.length := by
  rw [pairs, mem_pairsFrom_iff]
  constructor
  · rintro ⟨front, inside, rest, ⟨hfront, hinside, i', j, heq⟩, hpair⟩
    rw [Nat.zero_add] at hpair
    obtain ⟨hlength, rfl⟩ := Prod.mk.inj hpair
    obtain ⟨rfl, htail⟩ := List.append_inj (h.eq.symm.trans heq) hlength
    exact ⟨inside, j, rest, (List.cons.inj htail).2, hinside, rfl⟩
  · rintro ⟨inside, j, rest, rfl, hinside, rfl⟩
    exact ⟨before, inside, rest, ⟨h.units, hinside, i, j, h.eq⟩, by rw [Nat.zero_add]⟩

/-- A pair starts at a brace. -/
theorem exists_starts_of_mem_pairs {pair : Nat × Nat} (h : pair ∈ pairs (text p)) :
    ∃ before i after, Starts p before ('{', i) after ∧ pair.1 = before.length := by
  obtain ⟨before, inside, after, ⟨hbefore, -, i, j, heq⟩, rfl⟩ := mem_pairsFrom_iff.1 h
  exact ⟨before, i, _, ⟨hbefore, heq⟩, Nat.zero_add _⟩

/-- What starts before another unit starts in the text before that. -/
theorem Starts.exists_before {front rest : List Placed} (h : Starts p before c after)
    (h' : Starts p front d rest) (hlt : front.length < before.length) :
    ∃ between, rest = between ++ c :: after ∧ Starts before front d between := by
  rcases List.append_eq_append_iff.1 (h.eq.symm.trans h'.eq) with ⟨x, rfl, -⟩ | ⟨x, rfl, hx⟩
  · rw [List.length_append] at hlt
    omega
  · cases x with
    | nil => simp at hlt
    | cons e between =>
      obtain ⟨rfl, rfl⟩ := List.cons.inj hx
      exact ⟨between, rfl, h'.units, rfl⟩

theorem Starts.append (h : Starts before front d between) (c : Placed) (after : List Placed) :
    Starts (before ++ c :: after) front d (between ++ c :: after) :=
  ⟨h.units, by rw [h.eq, List.append_assoc]; rfl⟩

theorem closing_unique {opening closing closing' : Nat} (h : (opening, closing) ∈ pairs (text p))
    (h' : (opening, closing') ∈ pairs (text p)) : closing = closing' := by
  obtain ⟨before, i, after, hstarts, rfl⟩ := exists_starts_of_mem_pairs h
  obtain ⟨inside, j, rest, rfl, hinside, rfl⟩ := (mem_pairs_iff hstarts).1 h
  obtain ⟨other, j', rest', heq, hother, rfl⟩ := (mem_pairs_iff hstarts).1 h'
  -- What is split off does not depend on how it was found.
  have hsplit : split? 0 (text (inside ++ ('}', j) :: rest)) = some (text inside, text rest) :=
    split?_group hinside
  rw [heq, split?_group hother] at hsplit
  have hlength := congrArg List.length (Prod.mk.inj (Option.some.inj hsplit)).1
  rw [length_text, length_text] at hlength
  rw [hlength]

/-- A brace before a place is closed before it when its pair ends there. -/
theorem split?_ne_none_iff (h : Starts before front ('{', i) between) (c : Placed) (after : List Placed) :
    split? 0 (text between) ≠ none ↔
      ∃ closing < before.length, (front.length, closing) ∈ pairs (text (before ++ c :: after)) := by
  have hlength : before.length = front.length + 1 + between.length := by
    rw [h.eq, List.length_append, List.length_cons]
    omega
  constructor
  · intro hsome
    obtain ⟨found, hfound⟩ := Option.ne_none_iff_exists'.1 hsome
    obtain ⟨inside, j, rest, rfl, hinside⟩ := exists_walk_of_split? hfound
    refine ⟨front.length + 1 + inside.length, ?_, ?_⟩
    · rw [hlength, List.length_append, List.length_cons]
      omega
    · exact (mem_pairs_iff (h.append c after)).2 ⟨inside, j, rest ++ c :: after, by simp, hinside, rfl⟩
  · rintro ⟨_, hlt, hpair⟩
    obtain ⟨inside, j, rest, heq, hinside, rfl⟩ := (mem_pairs_iff (h.append c after)).1 hpair
    rcases List.append_eq_append_iff.1 heq with ⟨x, rfl, -⟩ | ⟨x, rfl, hx⟩
    · rw [List.length_append] at hlt
      omega
    · cases x with
      | nil =>
        rw [List.append_nil] at hlength
        omega
      | cons e x =>
        obtain ⟨rfl, rfl⟩ := List.cons.inj hx
        rw [split?_group hinside]
        exact Option.some_ne_none _

/-- All braces before a place are closed there when no pair stands around it, and none of them is never
closed. -/
theorem closesAll_iff (h : Starts p before c after) (hc : c.1 ≠ '}') :
    ClosesAll before ↔ (∀ pair ∈ pairs (text p), ¬ (pair.1 < before.length ∧ before.length < pair.2)) ∧
      ∀ front i rest, Starts p front ('{', i) rest → (∀ pair ∈ pairs (text p), pair.1 ≠ front.length) →
        before.length ≤ front.length := by
  obtain ⟨hbefore, rfl⟩ := h
  have h : Starts (before ++ c :: after) before c after := ⟨hbefore, rfl⟩
  constructor
  · intro hcloses
    constructor
    · rintro ⟨opening, closing⟩ hpair ⟨hopening, hclosing⟩
      obtain ⟨front, i, rest, hfront, rfl⟩ := exists_starts_of_mem_pairs hpair
      obtain ⟨between, -, hbetween⟩ := h.exists_before hfront hopening
      obtain ⟨closing', hlt, hpair'⟩ :=
        (split?_ne_none_iff hbetween c after).1 (hcloses front i between hbetween)
      have heq := closing_unique hpair hpair'
      omega
    · intro front i rest hfront hstray
      by_contra hlt
      obtain ⟨between, -, hbetween⟩ := h.exists_before hfront (Nat.lt_of_not_le hlt)
      obtain ⟨closing, -, hpair⟩ := (split?_ne_none_iff hbetween c after).1 (hcloses front i between hbetween)
      exact hstray _ hpair rfl
  · rintro ⟨haround, hstray⟩ front i between hfront
    have hlength : before.length = front.length + 1 + between.length := by
      rw [hfront.eq, List.length_append, List.length_cons]
      omega
    rw [split?_ne_none_iff hfront c after]
    by_contra hopen
    -- A pair that does not end before the place would stand around it, because there is no brace there.
    have hnone : ∀ pair ∈ pairs (text (before ++ c :: after)), pair.1 ≠ front.length := by
      rintro ⟨_, closing⟩ hpair rfl
      have hge : before.length ≤ closing := Nat.le_of_not_lt fun hlt => hopen ⟨closing, hlt, hpair⟩
      rcases Nat.eq_or_lt_of_le hge with rfl | hgt
      · obtain ⟨inside, j, rest, heq, -, hclosing⟩ := (mem_pairs_iff (hfront.append c after)).1 hpair
        obtain ⟨-, htail⟩ := List.append_inj heq (by omega)
        exact hc (by rw [(List.cons.inj htail).1])
      · exact haround _ hpair ⟨by omega, hgt⟩
    have hle := hstray front i _ (hfront.append c after) hnone
    omega

/-! ### Cutting -/

theorem Starts.mem (h : Starts p before c after) : c ∈ p := by
  rw [h.eq]
  exact List.mem_append_cons_self

theorem splitOnP_cons_of_false {cuts : Placed → Bool} (hc : cuts c = false) (s : List Placed) :
    (c :: s).splitOnP cuts = prependFirst [c] (s.splitOnP cuts) := by
  rw [List.splitOnP_cons_eq_if_modifyHead, hc]
  cases h : s.splitOnP cuts with
  | nil => exact absurd h (List.splitOnP_ne_nil cuts s)
  | cons first others => rfl

/-- Whether a text is cut at `c`, with `n` braces open at its start: at a comma with nothing open before it. -/
def CutsAt (n : Nat) (s : List Placed) (c : Placed) : Prop :=
  c.1 = ',' ∧ ∃ before after, Starts s before c after ∧ opened n before = 0

theorem CutsAt.ne (h : CutsAt n s c) : c.1 ≠ '\\' := by
  rw [h.1]
  decide

theorem CutsAt.mem (h : CutsAt n s c) : c ∈ s := by
  obtain ⟨-, before, after, hstarts, -⟩ := h
  exact hstarts.mem

theorem cutsAt_escape_iff : CutsAt n (('\\', i) :: c :: s) d ↔ CutsAt n s d := by
  refine and_congr_right fun hd => ?_
  simp only [starts_escape_iff (d := d) (by rw [hd]; decide)]
  constructor
  · rintro ⟨_, after, ⟨front, rfl, hstarts⟩, hopened⟩
    exact ⟨front, after, hstarts, hopened⟩
  · rintro ⟨front, after, hstarts, hopened⟩
    exact ⟨_, after, ⟨front, rfl, hstarts⟩, hopened⟩

theorem cutsAt_single_iff (hc : c.1 ≠ '\\') :
    CutsAt n (c :: s) d ↔ (c = d ∧ c.1 = ',' ∧ n = 0) ∨
      CutsAt (if c.1 = '{' then n + 1 else if c.1 = '}' then n - 1 else n) s d := by
  simp only [CutsAt, starts_single_iff hc]
  constructor
  · rintro ⟨hd, _, after, ⟨rfl, rfl, rfl⟩ | ⟨front, rfl, hstarts⟩, hopened⟩
    · exact Or.inl ⟨rfl, hd, hopened⟩
    · rw [opened_single hc] at hopened
      exact Or.inr ⟨hd, front, after, hstarts, hopened⟩
  · rintro (⟨rfl, hcomma, hn⟩ | ⟨hd, front, after, hstarts, hopened⟩)
    · exact ⟨hcomma, [], s, Or.inl ⟨rfl, rfl, rfl⟩, hn⟩
    · rw [← opened_single hc] at hopened
      exact ⟨hd, _, after, Or.inr ⟨front, rfl, hstarts⟩, hopened⟩

/-- The parts are what stands between the commas that are cut at. -/
theorem partsFrom_eq_splitOnP {cuts : Placed → Bool} (hs : s.Nodup)
    (hcuts : ∀ c ∈ s, cuts c = true ↔ CutsAt n s c) : partsFrom n s = s.splitOnP cuts := by
  induction s using unitInduction generalizing n with
  | nil => rfl
  | lone i =>
    have hlone : cuts ('\\', i) = false :=
      Bool.eq_false_iff.2 fun h => ((hcuts _ (by simp)).1 h).ne rfl
    rw [splitOnP_cons_of_false hlone]
    rfl
  | escape i c s ih =>
    obtain ⟨-, hcs⟩ := List.nodup_cons.1 hs
    obtain ⟨hnot, hs⟩ := List.nodup_cons.1 hcs
    simp only [cutsAt_escape_iff] at hcuts
    have hescape : cuts ('\\', i) = false :=
      Bool.eq_false_iff.2 fun h => ((hcuts _ (by simp)).1 h).ne rfl
    have hescaped : cuts c = false :=
      Bool.eq_false_iff.2 fun h => hnot ((hcuts c (by simp)).1 h).mem
    rw [splitOnP_cons_of_false hescape, splitOnP_cons_of_false hescaped, prependFirst_prependFirst,
      partsFrom_escape, ih hs fun d hd => hcuts d (by simp [hd])]
    rfl
  | single c s hc ih =>
    obtain ⟨hnot, hs⟩ := List.nodup_cons.1 hs
    simp only [cutsAt_single_iff hc] at hcuts
    have hrest : ∀ d ∈ s, cuts d = true ↔
        CutsAt (if c.1 = '{' then n + 1 else if c.1 = '}' then n - 1 else n) s d := by
      intro d hd
      rw [hcuts d (by simp [hd])]
      exact or_iff_right fun h => hnot (h.1 ▸ hd)
    rw [partsFrom_single hc]
    by_cases hcut : c.1 = ',' ∧ n = 0
    · have hsame : (if c.1 = '{' then n + 1 else if c.1 = '}' then n - 1 else n) = n := by
        rw [if_neg (by simp [hcut.1]), if_neg (by simp [hcut.1])]
      rw [hsame] at hrest
      have htrue : cuts c = true := (hcuts c (by simp)).2 (Or.inl ⟨rfl, hcut⟩)
      rw [if_pos hcut, List.splitOnP_cons_eq_if_modifyHead, if_pos htrue, ih hs hrest]
    · have hfalse : cuts c = false := by
        refine Bool.eq_false_iff.2 fun h => ?_
        rcases (hcuts c (by simp)).1 h with ⟨-, h⟩ | h
        · exact hcut h
        · exact hnot h.mem
      rw [if_neg hcut, splitOnP_cons_of_false hfalse, ih hs hrest]

/-- The places of the commas that a text is cut at: those between patterns, before every brace that is never
closed. -/
def cuts (s : List Char) : List Nat :=
  (separators s).filter fun comma => ∀ stray ∈ strays s, comma < stray

variable {list : List Char}

theorem Starts.place (h : Starts list.zipIdx before c after) : c.2 = before.length := by
  obtain ⟨front, rest, -, hbefore, hafter⟩ := List.zipIdx_eq_append_iff.1 h.eq
  cases rest with
  | nil => cases hafter
  | cons d rest =>
    rw [List.zipIdx_cons] at hafter
    rw [(List.cons.inj hafter).1, hbefore, List.length_zipIdx, Nat.zero_add]

theorem text_zipIdx (list : List Char) : text list.zipIdx = list :=
  List.zipIdx_map_fst 0 list

theorem nodup_zipIdx (list : List Char) : list.zipIdx.Nodup := by
  refine List.Nodup.of_map Prod.snd ?_
  rw [List.zipIdx_map_snd]
  exact List.nodup_range' 1

/-- At one place there is one character. -/
theorem char_unique {a b : Char} {place : Nat} (h : (a, place) ∈ list.zipIdx) (h' : (b, place) ∈ list.zipIdx) :
    a = b := by
  have ha := List.mem_zipIdx_iff_getElem?.1 h
  rw [List.mem_zipIdx_iff_getElem?.1 h'] at ha
  exact (Option.some.inj ha).symm

theorem mem_placesOf_iff {char : Char} (hchar : char ≠ '\\') {place : Nat} :
    place ∈ placesOf char list ↔ ∃ before after, Starts list.zipIdx before (char, place) after := by
  rw [← mem_bare_iff (d := (char, place)) hchar, placesOf, List.mem_map]
  constructor
  · rintro ⟨⟨d, i⟩, hd, rfl⟩
    have hdchar := (List.mem_filter.1 hd).2
    obtain rfl : d = char := of_decide_eq_true hdchar
    exact (List.mem_filter.1 hd).1
  · intro h
    exact ⟨(char, place), List.mem_filter.2 ⟨h, decide_eq_true rfl⟩, rfl⟩

theorem mem_strays_iff {place : Nat} : place ∈ strays list ↔
    ∃ before after, Starts list.zipIdx before ('{', place) after ∧
      ∀ pair ∈ pairs list, pair.1 ≠ before.length := by
  rw [strays, List.mem_filter, mem_placesOf_iff (by simp), decide_eq_true_iff]
  constructor
  · rintro ⟨⟨before, after, h⟩, hpairs⟩
    exact ⟨before, after, h, by rwa [← h.place]⟩
  · rintro ⟨before, after, h, hpairs⟩
    exact ⟨⟨before, after, h⟩, by rwa [← h.place] at hpairs⟩

theorem opened_eq_zero_iff_place {place : Nat} (h : Starts list.zipIdx before (',', place) after) :
    opened 0 before = 0 ↔ (∀ pair ∈ pairs list, ¬ (pair.1 < place ∧ place < pair.2)) ∧
      ∀ stray ∈ strays list, place < stray := by
  have hplace : place = before.length := h.place
  rw [opened_eq_zero_iff h.units, closesAll_iff h (by simp), text_zipIdx, ← hplace]
  constructor
  · rintro ⟨-, haround, hstrays⟩
    refine ⟨haround, fun stray hstray => ?_⟩
    obtain ⟨front, rest, hfront, hnone⟩ := mem_strays_iff.1 hstray
    refine Nat.lt_of_le_of_ne ?_ ?_
    · rw [show stray = front.length from hfront.place]
      exact hstrays front stray rest hfront hnone
    · rintro rfl
      cases char_unique h.mem hfront.mem
  · rintro ⟨haround, hstrays⟩
    refine ⟨fun _ hk => absurd hk (Nat.not_lt_zero _), haround, fun front i rest hfront hnone => ?_⟩
    rw [← show i = front.length from hfront.place]
    exact Nat.le_of_lt (hstrays i (mem_strays_iff.2 ⟨front, rest, hfront, hnone⟩))

/-- The commas that are cut at are those with nothing open before them. -/
theorem mem_cuts_iff {c : Placed} (hc : c ∈ list.zipIdx) : c.2 ∈ cuts list ↔ CutsAt 0 list.zipIdx c := by
  rw [cuts, separators, List.mem_filter, List.mem_filter, mem_placesOf_iff (by simp), decide_eq_true_iff,
    decide_eq_true_iff]
  constructor
  · rintro ⟨⟨⟨before, after, h⟩, haround⟩, hstrays⟩
    have hcomma : c.1 = ',' := char_unique hc h.mem
    have hopened := (opened_eq_zero_iff_place h).2 ⟨haround, hstrays⟩
    exact ⟨hcomma, before, after, by rwa [← hcomma] at h, hopened⟩
  · rintro ⟨hcomma, before, after, h, hopened⟩
    have h' : Starts list.zipIdx before (',', c.2) after := by rwa [← hcomma]
    obtain ⟨haround, hstrays⟩ := (opened_eq_zero_iff_place h').1 hopened
    exact ⟨⟨⟨before, after, h'⟩, haround⟩, hstrays⟩

/-- A text is cut at the commas between patterns that stand before every brace that is never closed. -/
theorem cut_eq_cutAt (list : List Char) : cut list = cutAt (cuts list) list := by
  have hparts : partsFrom 0 list.zipIdx = list.zipIdx.splitOnP fun c => (cuts list).contains c.2 :=
    partsFrom_eq_splitOnP (nodup_zipIdx list) fun c hc => by rw [List.contains_iff_mem, mem_cuts_iff hc]
  rw [cutAt, ← hparts, map_text_partsFrom, text_zipIdx, cut]

end Brace

/-! ### Lists of patterns -/

/-- The parts of a list as patterns: trimmed, without the empty ones. -/
def tidied (parts : List (List Char)) : List String :=
  ((parts.map Text.trim).filter (!·.isEmpty)).map String.ofList

theorem filter_dropWhile {α : Type} {keeps drops : α → Bool} (h : ∀ a, drops a = true → keeps a = false)
    (l : List α) : (l.dropWhile drops).filter keeps = l.filter keeps := by
  have hdropped : (l.takeWhile drops).filter keeps = [] := by
    rw [List.filter_eq_nil_iff]
    intro a ha
    rw [h a (List.mem_takeWhile_imp ha)]
    exact Bool.false_ne_true
  have hl := congrArg (List.filter keeps) (List.takeWhile_append_dropWhile (p := drops) (l := l))
  rwa [List.filter_append, hdropped, List.nil_append] at hl

/-- Trimming takes away blanks only. -/
theorem filter_trim {keeps : Char → Bool} (h : ∀ c, Text.isBlank c = true → keeps c = false) (s : List Char) :
    (Text.trim s).filter keeps = s.filter keeps := by
  rw [Text.trim, Text.trimEnd, Text.trimStart, List.filter_reverse, filter_dropWhile h, List.filter_reverse,
    List.reverse_reverse, filter_dropWhile h]

/-- Tidying loses no comma. -/
theorem commas_tidied (parts : List (List Char)) :
    ((tidied parts).flatMap String.toList).filter (· = ',') = parts.flatten.filter (· = ',') := by
  have hblank : ∀ c, Text.isBlank c = true → decide (c = ',') = false := by
    intro c hc
    rw [decide_eq_false_iff_not]
    rintro rfl
    exact absurd hc (by decide)
  induction parts with
  | nil => rfl
  | cons part parts ih =>
    rw [List.flatten_cons, List.filter_append, ← ih, ← filter_trim hblank part, tidied, tidied, List.map_cons,
      List.filter_cons]
    cases hempty : Text.trim part with
    | nil => simp
    | cons c s =>
      rw [← List.filter_append]
      simp

theorem flatten_splitOnP {α : Type} (cuts : α → Bool) (l : List α) :
    (l.splitOnP cuts).flatten = l.filter (!cuts ·) := by
  induction l with
  | nil => rfl
  | cons a l ih =>
    rw [List.splitOnP_cons_eq_if_modifyHead, List.filter_cons, ← ih]
    cases hl : l.splitOnP cuts with
    | nil => exact absurd hl (List.splitOnP_ne_nil cuts l)
    | cons first others => cases cuts a <;> simp

theorem flatten_cutAt (places : List Nat) (s : List Char) :
    (cutAt places s).flatten = text (s.zipIdx.filter fun c => !places.contains c.2) := by
  rw [cutAt, ← flatten_splitOnP, text, List.map_flatten]
  rfl

/-- The commas that are not cut at are left over. -/
theorem length_commas_cutAt (places : List Nat) (s : List Char) :
    ((tidied (cutAt places s)).flatMap String.toList |>.filter (· = ',')).length =
      (s.zipIdx.filter fun c => c.1 = ',' && !places.contains c.2).length := by
  rw [commas_tidied, flatten_cutAt, text, List.filter_map, List.length_map, List.filter_filter]
  rfl

/-- Cutting at fewer commas gives other patterns. -/
theorem mem_of_tidied_eq {few more : List Nat} {s : List Char} (hsub : ∀ place ∈ few, place ∈ more)
    (heq : tidied (cutAt few s) = tidied (cutAt more s)) {place : Nat} (hcomma : (',', place) ∈ s.zipIdx)
    (hplace : place ∈ more) : place ∈ few := by
  have hlength := length_commas_cutAt few s
  rw [heq, length_commas_cutAt] at hlength
  -- All commas that are left over with more cuts are left over with fewer, and they are as many.
  have hleft : (s.zipIdx.filter fun c => c.1 = ',' && !more.contains c.2).Sublist
      (s.zipIdx.filter fun c => c.1 = ',' && !few.contains c.2) := by
    refine List.monotone_filter_right _ fun c hc => ?_
    simp only [Bool.and_eq_true, Bool.not_eq_true', Bool.eq_false_iff, ne_eq, List.contains_iff_mem] at hc ⊢
    exact ⟨hc.1, fun hmem => hc.2 (hsub c.2 hmem)⟩
  by_contra hnot
  have hmem : (',', place) ∈ s.zipIdx.filter fun c => c.1 = ',' && !few.contains c.2 := by
    simp [List.mem_filter, hcomma, hnot]
  rw [← hleft.eq_of_length hlength] at hmem
  simp [List.mem_filter, hplace] at hmem

/-- A list is cut at the commas between patterns that stand before every brace that is never closed. So it is
cut at all commas between patterns just when there is none behind such a brace. -/
theorem splitPatterns_eq (list : String) :
    splitPatterns list = tidied (cutAt (cuts list.toList) list.toList) ∧
      (splitPatterns list = tidied (cutAt (separators list.toList) list.toList) ↔
        ∀ comma ∈ separators list.toList, ∀ stray ∈ strays list.toList, comma < stray) := by
  have hcut : splitPatterns list = tidied (cutAt (cuts list.toList) list.toList) := by
    rw [← cut_eq_cutAt]
    rfl
  refine ⟨hcut, ?_⟩
  rw [hcut]
  constructor
  · intro heq comma hcomma
    obtain ⟨before, after, hstarts⟩ := (mem_placesOf_iff (by simp)).1 (List.mem_filter.1 hcomma).1
    have hmem : comma ∈ cuts list.toList :=
      mem_of_tidied_eq (fun place hplace => (List.mem_filter.1 hplace).1) heq hstarts.mem hcomma
    exact of_decide_eq_true (List.mem_filter.1 hmem).2
  · intro hall
    have hcuts : cuts list.toList = separators list.toList :=
      List.filter_eq_self.2 fun comma hcomma => decide_eq_true (hall comma hcomma)
    rw [hcuts]

/-- A brace that is never closed is read as itself, but the comma behind it does not separate patterns. -/
theorem splitPatterns_behind_stray :
    tokenize ['{', 'a'] = [.literal '{', .literal 'a'] ∧
      tidied (cutAt (separators "\x7ba,b".toList) "\x7ba,b".toList) = ["\x7ba", "b"] ∧
      splitPatterns "\x7ba,b" = ["\x7ba,b"] :=
  ⟨by cbv, by decide +kernel, by decide +kernel⟩

end LineEndings.Glob

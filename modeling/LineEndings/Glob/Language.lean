/-
What a sequence of tokens means: a set of texts.

`Token.Matches` and `Matches` are defined together by recursion on the tokens. A sequence matches the
concatenations of texts of its members and nothing else, so a match is anchored at both ends, and a
line break is a character like any other.

Which characters a bracket expression stands for is left to a `Reading`: `CharClass.admits` is the one
that patterns are matched by, `CharClass.lists` the one that knows no named classes.
-/
import LineEndings.Glob.Token

namespace LineEndings.Glob

/-- Which characters a bracket expression stands for. -/
abbrev Reading := CharClass → Char → Bool

mutual

/-- The texts that one token matches. -/
def Token.Matches (reading : Reading) : Token → List Char → Prop
  | .literal c, s => s = [c]
  | .star, s => '/' ∉ s
  | .globStar, _ => True
  | .question, s => ∃ c, c ≠ '/' ∧ s = [c]
  | .charClass cls, s => ∃ c, reading cls c = true ∧ s = [c]
  | .group branches, s => SomeBranch reading branches s
  | .never, _ => False

/-- The texts that a sequence of tokens matches. -/
def Matches (reading : Reading) : List Token → List Char → Prop
  | [], s => s = []
  | token :: tokens, s => ∃ u v, s = u ++ v ∧ token.Matches reading u ∧ Matches reading tokens v

/-- The texts that some branch of a group matches. -/
def SomeBranch (reading : Reading) : List (List Token) → List Char → Prop
  | [], _ => False
  | branch :: branches, s => Matches reading branch s ∨ SomeBranch reading branches s

end

theorem someBranch_iff {reading : Reading} {branches : List (List Token)} {s : List Char} :
    SomeBranch reading branches s ↔ ∃ branch ∈ branches, Matches reading branch s := by
  induction branches with
  | nil => simp [SomeBranch]
  | cons branch branches ih => simp [SomeBranch, ih]

theorem matches_append_iff {reading : Reading} {tokens rest : List Token} {s : List Char} :
    Matches reading (tokens ++ rest) s ↔
      ∃ u v, s = u ++ v ∧ Matches reading tokens u ∧ Matches reading rest v := by
  induction tokens generalizing s with
  | nil =>
    refine ⟨fun h => ⟨[], s, rfl, rfl, h⟩, ?_⟩
    rintro ⟨_, v, rfl, rfl, hv⟩
    exact hv
  | cons token tokens ih =>
    constructor
    · rintro ⟨u, v, rfl, hu, hv⟩
      obtain ⟨v, w, rfl, hv, hw⟩ := ih.1 hv
      exact ⟨u ++ v, w, (List.append_assoc u v w).symm, ⟨u, v, rfl, hu, hv⟩, hw⟩
    · rintro ⟨_, w, rfl, ⟨u, v, rfl, hu, hv⟩, hw⟩
      exact ⟨u, v ++ w, List.append_assoc u v w, hu, ih.2 ⟨v, w, rfl, hv, hw⟩⟩

/-- With `never` among them, tokens match nothing. -/
theorem not_matches_of_dead {reading : Reading} {tokens : List Token} {t : List Char}
    (h : dead tokens = true) : ¬ Matches reading tokens t := by
  induction tokens generalizing t with
  | nil => cases h
  | cons token tokens ih =>
    rintro ⟨u, v, -, hu, hv⟩
    rw [dead, List.any_cons, Bool.or_eq_true] at h
    rcases h with h | h
    · cases token with
      | never => exact hu
      | _ => cases h
    · exact ih h hv

/-! ### Bracket expressions in a sequence -/

mutual

/-- Whether every bracket expression in a token, at any depth, has a property. -/
def Token.EveryClass (holds : CharClass → Prop) : Token → Prop
  | .charClass cls => holds cls
  | .group branches => EveryClassOfAll holds branches
  | _ => True

/-- Whether every bracket expression in a sequence, at any depth, has a property. -/
def EveryClass (holds : CharClass → Prop) : List Token → Prop
  | [] => True
  | token :: tokens => token.EveryClass holds ∧ EveryClass holds tokens

/-- Whether every bracket expression in some sequences, at any depth, has a property. -/
def EveryClassOfAll (holds : CharClass → Prop) : List (List Token) → Prop
  | [] => True
  | branch :: branches => EveryClass holds branch ∧ EveryClassOfAll holds branches

end

variable {reading other : Reading} {holds : CharClass → Prop}

mutual

theorem Token.matches_congr (h : ∀ cls, holds cls → ∀ c, reading cls c = other cls c) :
    ∀ (token : Token), token.EveryClass holds → ∀ s, token.Matches reading s ↔ token.Matches other s
  | .literal _, _, _ | .star, _, _ | .globStar, _, _ | .question, _, _ | .never, _, _ => Iff.rfl
  | .charClass cls, hcls, s => by simp only [Token.Matches, h cls hcls]
  | .group branches, hbranches, s => someBranch_congr h branches hbranches s

/-- Readings that agree on the bracket expressions in a sequence make it match the same texts. -/
theorem matches_congr (h : ∀ cls, holds cls → ∀ c, reading cls c = other cls c) :
    ∀ (tokens : List Token), EveryClass holds tokens →
      ∀ s, Matches reading tokens s ↔ Matches other tokens s
  | [], _, _ => Iff.rfl
  | token :: tokens, ⟨htoken, htokens⟩, s => by
    simp only [Matches, token.matches_congr h htoken, matches_congr h tokens htokens]

theorem someBranch_congr (h : ∀ cls, holds cls → ∀ c, reading cls c = other cls c) :
    ∀ (branches : List (List Token)), EveryClassOfAll holds branches →
      ∀ s, SomeBranch reading branches s ↔ SomeBranch other branches s
  | [], _, _ => Iff.rfl
  | branch :: branches, ⟨hbranch, hbranches⟩, s => by
    simp only [SomeBranch, matches_congr h branch hbranch, someBranch_congr h branches hbranches]

end

end LineEndings.Glob

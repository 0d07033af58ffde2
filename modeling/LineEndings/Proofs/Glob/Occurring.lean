/-
Where tokens stand in what is read from a text.

A branch of a group is read as a text of its own, with one level of groups less. So what stands in groups, however
deep, stands at top level in what is read from some part of the text (`exists_read_of_occursAt`), and what holds of
every token at top level (`readFrom_of_mem`) says what can stand anywhere:

* `tokenize_wellFormed` — `never` stands at top level only, groups have branches and do not nest too deep, no range
  runs backwards, and no bracket expression lists nothing unless it is negated.
-/
import LineEndings.Proofs.Glob.Expanding
import LineEndings.Proofs.Glob.Matching

namespace LineEndings.Glob

open Brace

/-- Whether a token stands in a sequence with a number of groups around it. -/
inductive OccursAt (token : Token) : Nat → List Token → Prop
  | top {tokens : List Token} (h : token ∈ tokens) : OccursAt token 0 tokens
  | inside {depth : Nat} {tokens branch : List Token} {branches : List (List Token)}
      (hgroup : .group branches ∈ tokens) (hbranch : branch ∈ branches) (h : OccursAt token depth branch) :
      OccursAt token (depth + 1) tokens

/-- Whether no range of a bracket expression runs backwards, and it lists something unless it is negated. -/
structure CharClass.WellFormed (cls : CharClass) : Prop where
  low_le_high : ∀ low high, .range low high ∈ cls.items → low ≤ high
  items_ne_nil : cls.negated = false → cls.items ≠ []

variable {branch : Option (List Char → List Token)} {token : Token} {s t : List Char}

/-! ### What is read at top level -/

/-- What is known of a token that is read from a text: a character that stands for itself is one of the text, a
bracket expression is well formed, and a group has branches, each of them live and read from a part of the text. -/
def Token.ReadFrom (branch : Option (List Char → List Token)) (s : List Char) : Token → Prop
  | .literal c => c ∈ s
  | .charClass cls => cls.WellFormed
  | .group branches =>
    branches ≠ [] ∧ ∃ read, branch = some read ∧
      ∀ tokens ∈ branches, .never ∉ tokens ∧ ∃ part, part ⊆ s ∧ read part = tokens
  | _ => True

theorem Token.ReadFrom.mono (h : token.ReadFrom branch s) (hst : s ⊆ t) : token.ReadFrom branch t := by
  cases token with
  | literal c => exact hst h
  | group branches =>
    obtain ⟨hne, read, hread, hbranches⟩ := h
    refine ⟨hne, read, hread, fun tokens hmem => ?_⟩
    obtain ⟨hlive, part, hpart, htokens⟩ := hbranches tokens hmem
    exact ⟨hlive, part, List.Subset.trans hpart hst, htokens⟩
  | charClass cls => exact h
  | _ => trivial

theorem le_of_mem_classItems {low high : Char} (h : .range low high ∈ classItems s) : low ≤ high := by
  fun_induction classItems s with
  | case1 => cases h
  | case2 c s d r hdash low' high' hle ih =>
    rcases List.mem_cons.1 h with h | h
    · obtain ⟨rfl, rfl⟩ := ClassItem.range.inj h
      exact hle
    · exact ih h
  | case3 c s d r hdash low' high' hnot ih => exact ih h
  | case4 c s hdash ih =>
    rcases List.mem_cons.1 h with h | h
    · cases h
    · exact ih h

/-- What stands between brackets lists something, or is not read as a bracket expression. -/
theorem readFrom_classToken (inside : List Char) : (classToken inside).ReadFrom branch s := by
  obtain ⟨negated, body, hclass⟩ : ∃ negated body, classToken inside =
      if (classItems body).isEmpty && !negated then .never else .charClass ⟨negated, classItems body⟩ :=
    ⟨_, _, rfl⟩
  rw [hclass]
  split
  · trivial
  · rename_i hitems
    refine ⟨fun low high => le_of_mem_classItems, ?_⟩
    rintro rfl hnil
    exact hitems (by simpa using hnil)

theorem sublist_of_mem_cut {part : List Char} (h : part ∈ cut s) : part.Sublist s := by
  rw [← text_placed s, ← map_text_parts] at h
  obtain ⟨part, hpart, rfl⟩ := List.mem_map.1 h
  have hsublist := (sublist_of_mem_parts hpart).map Prod.fst
  rwa [← text, ← text, text_placed] at hsublist

/-- What stands between braces has a live branch, or is not read as a group. -/
theorem readFrom_groupToken {read : List Char → List Token} {inside : List Char} (h : inside ⊆ s) :
    (groupToken read inside).ReadFrom (some read) s := by
  unfold groupToken
  dsimp only
  split
  · trivial
  · rename_i hlive
    refine ⟨by simpa using hlive, read, rfl, fun tokens hmem => ?_⟩
    obtain ⟨hmem, hdead⟩ := List.mem_filter.1 hmem
    obtain ⟨part, hpart, rfl⟩ := List.mem_map.1 hmem
    refine ⟨fun hnever => ?_, part, List.Subset.trans (sublist_of_mem_cut hpart).subset h, rfl⟩
    rw [dead_eq_true_iff.2 hnever] at hdead
    cases hdead

theorem readFrom_readToken (branch : Option (List Char → List Token)) (c : Char) (s : List Char) :
    (readToken branch c s).1.ReadFrom branch (c :: s) := by
  unfold readToken
  split
  · split
    · exact List.mem_cons_self
    · exact List.mem_cons_of_mem _ List.mem_cons_self
  · split
    · trivial
    · trivial
  · trivial
  · split
    · exact readFrom_classToken _
    · exact List.mem_cons_self
  · split
    · rename_i inside rest hsplit
      refine readFrom_groupToken ?_
      rw [eq_append_of_split? hsplit]
      exact List.Subset.trans (List.subset_append_left _ _) (List.subset_cons_self _ _)
    · exact List.mem_cons_self
  · exact List.mem_cons_self

/-- What is left after a token is the end of the text. -/
theorem readToken_suffix (branch : Option (List Char → List Token)) (c : Char) (s : List Char) :
    (readToken branch c s).2 <:+ s := by
  unfold readToken
  split
  · split
    · exact List.suffix_rfl
    · exact List.suffix_cons _ _
  · split
    · exact List.suffix_cons _ _
    · exact List.suffix_rfl
  · exact List.suffix_rfl
  · split
    · rename_i inside rest hsplit
      exact ⟨inside ++ [']'], by simp [eq_append_of_splitBracket? hsplit]⟩
    · exact List.suffix_rfl
  · split
    · rename_i inside rest hsplit
      exact ⟨inside ++ ['}'], by simp [eq_append_of_split? hsplit]⟩
    · exact List.suffix_rfl
  · exact List.suffix_rfl

theorem readFrom_of_mem (h : token ∈ tokensWith branch s) : token.ReadFrom branch s := by
  fun_induction tokensWith branch s with
  | case1 => cases h
  | case2 c s ih =>
    rcases List.mem_cons.1 h with rfl | h
    · exact readFrom_readToken branch c s
    · exact (ih h).mono (List.Subset.trans (readToken_suffix branch c s).subset (List.subset_cons_self c s))

/-! ### What is read in groups -/

variable {levels depth : Nat}

/-- A group is read where a level is left, and its branches are read with the levels below. -/
theorem exists_below_of_group_mem {branches : List (List Token)} (h : .group branches ∈ tokensWithin levels s) :
    ∃ below, levels = below + 1 ∧ branches ≠ [] ∧
      ∀ tokens ∈ branches, .never ∉ tokens ∧ ∃ part, part ⊆ s ∧ tokensWithin below part = tokens := by
  cases levels with
  | zero =>
    obtain ⟨-, read, hread, -⟩ := readFrom_of_mem h
    cases hread
  | succ below =>
    obtain ⟨hne, read, hread, hbranches⟩ := readFrom_of_mem h
    obtain rfl := Option.some.inj hread
    exact ⟨below, rfl, hne, hbranches⟩

/-- What stands with groups around it stands at top level in what is read from a part of the text with that many
levels less, and it is not `never`. -/
theorem exists_read_of_occursAt (h : OccursAt token depth (tokensWithin levels s)) :
    ∃ below part, levels = depth + below ∧ part ⊆ s ∧ token ∈ tokensWithin below part ∧
      (token = .never → depth = 0) := by
  generalize htokens : tokensWithin levels s = tokens at h
  induction h generalizing levels s with
  | top hmem =>
    rw [← htokens] at hmem
    exact ⟨levels, s, (Nat.zero_add levels).symm, List.Subset.refl s, hmem, fun _ => rfl⟩
  | @inside depth tokens branch branches hgroup hbranch hinside ih =>
    rw [← htokens] at hgroup
    obtain ⟨rest, rfl, -, hbranches⟩ := exists_below_of_group_mem hgroup
    obtain ⟨hlive, part, hpart, hread⟩ := hbranches branch hbranch
    obtain ⟨below, inner, rfl, hinner, hmem, hnever⟩ := ih hread
    refine ⟨below, inner, by omega, List.Subset.trans hinner hpart, hmem, ?_⟩
    rintro rfl
    -- A branch is live, so there is no `never` at its top level either.
    obtain rfl := hnever rfl
    cases hinside with
    | top hmem => exact absurd hmem hlive

theorem never_occursAt_iff : (∃ depth, OccursAt .never depth (tokensWithin levels s)) ↔
    dead (tokensWithin levels s) = true := by
  rw [dead_eq_true_iff]
  constructor
  · rintro ⟨depth, h⟩
    obtain ⟨-, -, -, -, -, hdepth⟩ := exists_read_of_occursAt h
    obtain rfl := hdepth rfl
    cases h with
    | top hmem => exact hmem
  · exact fun hmem => ⟨0, .top hmem⟩

theorem wellFormed_of_occursAt {cls : CharClass} (h : OccursAt (.charClass cls) depth (tokensWithin levels s)) :
    cls.WellFormed := by
  obtain ⟨below, part, -, -, hmem, -⟩ := exists_read_of_occursAt h
  obtain ⟨branch, hbranch⟩ := exists_tokensWithin_eq below
  rw [hbranch] at hmem
  exact readFrom_of_mem hmem

/-- The tokens of a pattern. However deep one looks, `never` stands at top level only; a group has a branch and
fewer groups around it than may be nested; the ends of a range are in order; and a bracket expression lists
something unless it is negated. So if there is no `never` at top level, there is none anywhere, and none in the
tokens that a compiled pattern is matched with. -/
theorem tokenize_wellFormed (pattern : List Char) :
    (∀ depth, OccursAt .never depth (tokenize pattern) → depth = 0) ∧
      (∀ depth branches, OccursAt (.group branches) depth (tokenize pattern) → depth < maxDepth ∧ branches ≠ []) ∧
      (∀ depth cls, OccursAt (.charClass cls) depth (tokenize pattern) →
        (∀ low high, .range low high ∈ cls.items → low ≤ high) ∧ (cls.negated = false → cls.items ≠ [])) ∧
      ((∃ depth, OccursAt .never depth (tokenize pattern)) ↔ dead (tokenize pattern) = true) ∧
      ∀ raw tokens, (Pattern.compile raw).tokens? = some tokens → ∀ depth, ¬ OccursAt .never depth tokens := by
  refine ⟨fun depth h => ?_, fun depth branches h => ?_, fun depth cls h => ?_, never_occursAt_iff,
    fun raw tokens htokens depth h => ?_⟩
  · obtain ⟨-, -, -, -, -, hdepth⟩ := exists_read_of_occursAt h
    exact hdepth rfl
  · obtain ⟨below, part, hlevels, -, hmem, -⟩ := exists_read_of_occursAt h
    obtain ⟨rest, rfl, hne, -⟩ := exists_below_of_group_mem hmem
    exact ⟨by omega, hne⟩
  · have hcls := wellFormed_of_occursAt h
    exact ⟨hcls.low_le_high, hcls.items_ne_nil⟩
  · change (if (Text.trim raw.toList).isEmpty || dead (tokensOf raw) then none else some (tokensOf raw)) = _
      at htokens
    split at htokens
    · cases htokens
    · rename_i hlive
      obtain rfl := Option.some.inj htokens
      have hdead : dead (tokensOf raw) = true := never_occursAt_iff.1 ⟨depth, h⟩
      rw [hdead, Bool.or_true] at hlive
      exact hlive rfl

end LineEndings.Glob

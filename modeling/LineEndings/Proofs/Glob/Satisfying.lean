/-
Which patterns some path matches.

A pattern that is not blank may still match nothing. No path holds a backslash once it is compared, and no bracket
expression stands for a separator, so one that lists nothing else stands for no character of a path; and a group
needs a branch that can match. `Satisfiable` says so token by token.

* `CharClass.satisfiable_iff` — which bracket expressions stand for a character that a path can have;
* `exists_matches_iff_satisfiable` — a pattern matches some path when it is not blank and satisfiable;
* `satisfiable_of_plain` — what is read from a text without brackets and backslashes always is.
-/
import LineEndings.Proofs.Glob.Occurring
import LineEndings.Proofs.Glob.Quoting
import LineEndings.Proofs.Glob.Segments

namespace LineEndings.Glob

open Brace

/-! ### Bracket expressions -/

/-- The items that list nothing but a separator. -/
def ClassItem.separators : List ClassItem :=
  [.single '/', .single '\\', .range '/' '/', .range '\\' '\\']

/-- Whether a bracket expression stands for a character that is no separator: it is negated and does not list all
of them, or one of its items lists one. -/
def CharClass.Satisfiable (cls : CharClass) : Prop :=
  if cls.negated then ∃ c, c ≠ '/' ∧ c ≠ '\\' ∧ ∀ item ∈ cls.items, item.admits c = false
  else ∃ item ∈ cls.items, item ∉ ClassItem.separators

theorem ClassItem.exists_admits_iff {item : ClassItem} (h : ∀ low high, item = .range low high → low ≤ high) :
    (∃ c, c ≠ '/' ∧ c ≠ '\\' ∧ item.admits c = true) ↔ item ∉ ClassItem.separators := by
  cases item with
  | single d =>
    simp only [ClassItem.admits, beq_iff_eq, separators, List.mem_cons, ClassItem.single.injEq, reduceCtorEq,
      List.not_mem_nil, or_false, not_or]
    constructor
    · rintro ⟨c, hslash, hescape, rfl⟩
      exact ⟨hslash, hescape⟩
    · exact fun ⟨hslash, hescape⟩ => ⟨d, hslash, hescape, rfl⟩
  | range low high =>
    have hle := h low high rfl
    simp only [ClassItem.admits, Bool.and_eq_true, decide_eq_true_eq, separators, List.mem_cons,
      ClassItem.range.injEq, reduceCtorEq, List.not_mem_nil, or_false, false_or, not_or]
    constructor
    · rintro ⟨c, hslash, hescape, hlow, hhigh⟩
      refine ⟨?_, ?_⟩
      · rintro ⟨rfl, rfl⟩
        exact hslash (Char.le_antisymm hhigh hlow)
      · rintro ⟨rfl, rfl⟩
        exact hescape (Char.le_antisymm hhigh hlow)
    · rintro ⟨hslash, hescape⟩
      by_cases hlow : low = '/' ∨ low = '\\'
      · by_cases hhigh : high = '/' ∨ high = '\\'
        · -- From one separator to the other there are letters in between.
          obtain ⟨rfl, rfl⟩ : low = '/' ∧ high = '\\' := by
            rcases hlow with rfl | rfl <;> rcases hhigh with rfl | rfl
            · exact absurd ⟨rfl, rfl⟩ hslash
            · exact ⟨rfl, rfl⟩
            · exact absurd hle (by decide)
            · exact absurd ⟨rfl, rfl⟩ hescape
          exact ⟨'A', by decide, by decide, by decide, by decide⟩
        · obtain ⟨hslash, hescape⟩ := not_or.1 hhigh
          exact ⟨high, hslash, hescape, hle, Char.le_refl high⟩
      · obtain ⟨hslash, hescape⟩ := not_or.1 hlow
        exact ⟨low, hslash, hescape, Char.le_refl low, hle⟩

/-- A character of a named class. -/
def NamedClass.sample : NamedClass → Char
  | .digit => '0'
  | .upper => 'A'
  | .blank | .space => ' '
  | .punct => '!'
  | .cntrl => '\x7f'
  | _ => 'a'

theorem NamedClass.admits_sample (named : NamedClass) :
    named.sample ≠ '/' ∧ named.sample ≠ '\\' ∧ named.admits named.sample = true := by
  cases named <;> decide

theorem CharClass.satisfiable_iff {cls : CharClass} (h : cls.WellFormed) :
    cls.Satisfiable ↔ ∃ c, c ≠ '\\' ∧ cls.admits c = true := by
  cases hnamed : cls.named? with
  | some named =>
    obtain rfl := named?_eq_some_iff.1 hnamed
    refine iff_of_true ⟨.single ':', by simp [NamedClass.items], by decide⟩ ?_
    obtain ⟨hslash, hescape, hadmits⟩ := named.admits_sample
    exact ⟨named.sample, hescape, by simp [CharClass.admits, hnamed, hslash, hadmits]⟩
  | none =>
    have hlists : ∀ c, cls.admits c = cls.lists c := (admits_eq_lists_iff cls).2 hnamed
    simp only [hlists, CharClass.lists, CharClass.Satisfiable, Bool.and_eq_true, bne_iff_ne, ne_eq]
    cases cls.negated with
    | true =>
      simp only [if_true, Bool.not_eq_true, List.any_eq_false]
      exact exists_congr fun c => and_left_comm
    | false =>
      simp only [Bool.false_eq_true, if_false, Bool.not_eq_false, List.any_eq_true]
      constructor
      · rintro ⟨item, hitem, hseparator⟩
        obtain ⟨c, hslash, hescape, hc⟩ :=
          (ClassItem.exists_admits_iff fun low high he => h.low_le_high low high (he ▸ hitem)).2 hseparator
        exact ⟨c, hescape, hslash, item, hitem, hc⟩
      · rintro ⟨c, hescape, hslash, item, hitem, hc⟩
        exact ⟨item, hitem, (ClassItem.exists_admits_iff fun low high he => h.low_le_high low high (he ▸ hitem)).1
          ⟨c, hslash, hescape, hc⟩⟩

/-! ### Sequences -/

mutual

/-- Whether a token matches a text without backslashes: it is no backslash, there is a character or a branch for
it, and it is not `never`. -/
def Token.Satisfiable : Token → Prop
  | .literal c => c ≠ '\\'
  | .charClass cls => cls.Satisfiable
  | .group branches => SomeSatisfiable branches
  | .never => False
  | _ => True

/-- Whether every token of a sequence matches a text without backslashes. -/
def Satisfiable : List Token → Prop
  | [] => True
  | token :: tokens => token.Satisfiable ∧ Satisfiable tokens

/-- Whether some branch of a group matches a text without backslashes. -/
def SomeSatisfiable : List (List Token) → Prop
  | [] => False
  | branch :: branches => Satisfiable branch ∨ SomeSatisfiable branches

end

mutual

theorem Token.satisfiable_of_matches : ∀ (token : Token), token.EveryClass CharClass.WellFormed → ∀ {t : List Char},
    token.Matches CharClass.admits t → '\\' ∉ t → token.Satisfiable
  | .literal c, _, _, rfl, ht => by
    rintro rfl
    exact ht List.mem_cons_self
  | .charClass cls, hcls, _, ⟨c, hc, rfl⟩, ht => by
    refine (CharClass.satisfiable_iff hcls).2 ⟨c, ?_, hc⟩
    rintro rfl
    exact ht List.mem_cons_self
  | .group branches, hbranches, _, hmatch, ht => someSatisfiable_of_someBranch branches hbranches hmatch ht
  | .star, _, _, _, _ | .globStar, _, _, _, _ | .question, _, _, _, _ => trivial

theorem satisfiable_of_matches : ∀ (tokens : List Token), EveryClass CharClass.WellFormed tokens → ∀ {t : List Char},
    Matches CharClass.admits tokens t → '\\' ∉ t → Satisfiable tokens
  | [], _, _, _, _ => trivial
  | token :: tokens, ⟨htoken, htokens⟩, _, ⟨u, v, rfl, hu, hv⟩, ht => by
    rw [List.mem_append, not_or] at ht
    exact ⟨token.satisfiable_of_matches htoken hu ht.1, satisfiable_of_matches tokens htokens hv ht.2⟩

theorem someSatisfiable_of_someBranch : ∀ (branches : List (List Token)),
    EveryClassOfAll CharClass.WellFormed branches → ∀ {t : List Char},
      SomeBranch CharClass.admits branches t → '\\' ∉ t → SomeSatisfiable branches
  | branch :: _, ⟨hbranch, _⟩, _, .inl hmatch, ht => Or.inl (satisfiable_of_matches branch hbranch hmatch ht)
  | _ :: branches, ⟨_, hbranches⟩, _, .inr hmatch, ht =>
    Or.inr (someSatisfiable_of_someBranch branches hbranches hmatch ht)

end

/-- Whether a text holds no backslash, and a `/` only where one stands for itself in a sequence. -/
structure Plain (tokens : List Token) (t : List Char) : Prop where
  escape_notMem : '\\' ∉ t
  slash : '/' ∈ t → ∃ depth, OccursAt (.literal '/') depth tokens

theorem OccursAt.mono {token : Token} {depth : Nat} {tokens more : List Token} (h : OccursAt token depth tokens)
    (hsub : tokens ⊆ more) : OccursAt token depth more := by
  cases h with
  | top hmem => exact .top (hsub hmem)
  | inside hgroup hbranch h => exact .inside (hsub hgroup) hbranch h

theorem Plain.append {token : Token} {tokens : List Token} {u v : List Char} (hu : Plain [token] u)
    (hv : Plain tokens v) : Plain (token :: tokens) (u ++ v) := by
  refine ⟨by simp [hu.escape_notMem, hv.escape_notMem], fun hmem => ?_⟩
  rcases List.mem_append.1 hmem with hmem | hmem
  · obtain ⟨depth, h⟩ := hu.slash hmem
    exact ⟨depth, h.mono (by simp)⟩
  · obtain ⟨depth, h⟩ := hv.slash hmem
    exact ⟨depth, h.mono (List.subset_cons_self _ _)⟩

theorem Plain.inside {branches : List (List Token)} {branch : List Token} {t : List Char} (h : Plain branch t)
    (hbranch : branch ∈ branches) : Plain [.group branches] t := by
  refine ⟨h.escape_notMem, fun hmem => ?_⟩
  obtain ⟨depth, hslash⟩ := h.slash hmem
  exact ⟨depth + 1, .inside List.mem_cons_self hbranch hslash⟩

theorem Plain.single {token : Token} {c : Char} (hescape : c ≠ '\\') (hslash : c = '/' → token = .literal '/') :
    Plain [token] [c] := by
  refine ⟨by simpa using hescape.symm, fun hmem => ⟨0, .top ?_⟩⟩
  rw [hslash (List.mem_singleton.1 hmem).symm]
  exact List.mem_cons_self

theorem Plain.nil {tokens : List Token} : Plain tokens [] :=
  ⟨List.not_mem_nil, fun hmem => absurd hmem List.not_mem_nil⟩

mutual

theorem Token.exists_matches_of_satisfiable : ∀ (token : Token), token.EveryClass CharClass.WellFormed →
    token.Satisfiable → ∃ t, token.Matches CharClass.admits t ∧ Plain [token] t
  | .literal c, _, h => ⟨[c], rfl, .single h fun he => by rw [he]⟩
  | .star, _, _ => ⟨[], List.not_mem_nil, .nil⟩
  | .globStar, _, _ => ⟨[], trivial, .nil⟩
  | .question, _, _ => ⟨['a'], ⟨'a', by decide, rfl⟩, .single (by decide) fun he => absurd he (by decide)⟩
  | .charClass cls, hcls, h => by
    obtain ⟨c, hescape, hc⟩ := (CharClass.satisfiable_iff hcls).1 h
    refine ⟨[c], ⟨c, hc, rfl⟩, .single hescape ?_⟩
    rintro rfl
    rw [admits_separator] at hc
    cases hc
  | .group branches, hbranches, h => by
    obtain ⟨branch, hbranch, t, ht, hplain⟩ := exists_matches_of_someSatisfiable branches hbranches h
    exact ⟨t, someBranch_iff.2 ⟨branch, hbranch, ht⟩, hplain.inside hbranch⟩

theorem exists_matches_of_satisfiable : ∀ (tokens : List Token), EveryClass CharClass.WellFormed tokens →
    Satisfiable tokens → ∃ t, Matches CharClass.admits tokens t ∧ Plain tokens t
  | [], _, _ => ⟨[], rfl, .nil⟩
  | token :: tokens, ⟨htoken, htokens⟩, ⟨h, hrest⟩ => by
    obtain ⟨u, hu, huplain⟩ := token.exists_matches_of_satisfiable htoken h
    obtain ⟨v, hv, hvplain⟩ := exists_matches_of_satisfiable tokens htokens hrest
    exact ⟨u ++ v, ⟨u, v, rfl, hu, hv⟩, huplain.append hvplain⟩

theorem exists_matches_of_someSatisfiable : ∀ (branches : List (List Token)),
    EveryClassOfAll CharClass.WellFormed branches → SomeSatisfiable branches →
      ∃ branch ∈ branches, ∃ t, Matches CharClass.admits branch t ∧ Plain branch t
  | branch :: _, ⟨hbranch, _⟩, .inl h =>
    ⟨branch, List.mem_cons_self, exists_matches_of_satisfiable branch hbranch h⟩
  | _ :: branches, ⟨_, hbranches⟩, .inr h => by
    obtain ⟨branch, hmem, ht⟩ := exists_matches_of_someSatisfiable branches hbranches h
    exact ⟨branch, List.mem_cons_of_mem _ hmem, ht⟩

end

/-! ### Texts without brackets and backslashes -/

theorem satisfiable_iff_forall {tokens : List Token} :
    Satisfiable tokens ↔ ∀ token ∈ tokens, token.Satisfiable := by
  induction tokens with
  | nil => simp [Satisfiable]
  | cons token tokens ih => rw [Satisfiable, ih, List.forall_mem_cons]

theorem someSatisfiable_iff {branches : List (List Token)} :
    SomeSatisfiable branches ↔ ∃ branch ∈ branches, Satisfiable branch := by
  induction branches with
  | nil => simp [SomeSatisfiable]
  | cons branch branches ih => simp [SomeSatisfiable, ih]

theorem dead_of_satisfiable {tokens : List Token} (h : Satisfiable tokens) : dead tokens = false := by
  rw [← Bool.not_eq_true, dead_eq_true_iff]
  exact fun hnever => satisfiable_iff_forall.1 h _ hnever

theorem satisfiable_groupToken {read : List Char → List Token} {inside : List Char}
    (h : ∀ part, part ⊆ inside → Satisfiable (read part)) : (groupToken read inside).Satisfiable := by
  have hbranches : ∀ branch ∈ (cut inside).map read, Satisfiable branch := by
    intro branch hbranch
    obtain ⟨part, hpart, rfl⟩ := List.mem_map.1 hbranch
    exact h part (sublist_of_mem_cut hpart).subset
  have hlive : ((cut inside).map read).filter (!dead ·) = (cut inside).map read := by
    refine List.filter_eq_self.2 fun branch hbranch => ?_
    rw [dead_of_satisfiable (hbranches branch hbranch)]
    rfl
  have hne : (cut inside).map read ≠ [] := by
    rw [← text_placed inside, ← map_text_parts, ne_eq, List.map_eq_nil_iff, List.map_eq_nil_iff]
    exact partsFrom_ne_nil 0 _
  unfold groupToken
  dsimp only
  rw [hlive, if_neg (by simpa using hne)]
  obtain ⟨branch, rest, hcons⟩ := List.exists_cons_of_ne_nil hne
  exact someSatisfiable_iff.2 ⟨branch, by simp [hcons], hbranches branch (by simp [hcons])⟩

theorem satisfiable_readToken {branch : Option (List Char → List Token)} {c : Char} {s : List Char}
    (hbranch : ∀ read, branch = some read → ∀ part, part ⊆ s → Satisfiable (read part))
    (hbracket : c ≠ '[') (hescape : c ≠ '\\') : (readToken branch c s).1.Satisfiable := by
  unfold readToken
  split
  · exact absurd rfl hescape
  · split
    · trivial
    · trivial
  · trivial
  · exact absurd rfl hbracket
  · split
    · rename_i read inside rest hsplit
      refine satisfiable_groupToken fun part hpart => hbranch read rfl part (List.Subset.trans hpart ?_)
      rw [eq_append_of_split? hsplit]
      exact List.subset_append_left _ _
    · exact hescape
  · exact hescape

theorem satisfiable_tokensWith {branch : Option (List Char → List Token)} {s : List Char}
    (hbranch : ∀ read, branch = some read → ∀ part, part ⊆ s → Satisfiable (read part))
    (hbracket : '[' ∉ s) (hescape : '\\' ∉ s) : Satisfiable (tokensWith branch s) := by
  fun_induction tokensWith branch s with
  | case1 => trivial
  | case2 c s ih =>
    obtain ⟨hc, hs⟩ := not_or.1 (List.mem_cons.not.1 hbracket)
    obtain ⟨hc', hs'⟩ := not_or.1 (List.mem_cons.not.1 hescape)
    have hrest := (readToken_suffix branch c s).subset
    refine ⟨satisfiable_readToken (fun read hread part hpart => ?_) (Ne.symm hc) (Ne.symm hc'),
      ih (fun read hread part hpart => ?_) (fun hmem => hs (hrest hmem)) fun hmem => hs' (hrest hmem)⟩
    · exact hbranch read hread part (List.subset_cons_of_subset c hpart)
    · exact hbranch read hread part (List.subset_cons_of_subset c (List.Subset.trans hpart hrest))

/-- What is read from a text without brackets and backslashes can match. -/
theorem satisfiable_of_plain {levels : Nat} {s : List Char} (hbracket : '[' ∉ s) (hescape : '\\' ∉ s) :
    Satisfiable (tokensWithin levels s) := by
  -- A branch is read from a part of the text, with one level less.
  induction levels generalizing s with
  | zero => exact satisfiable_tokensWith (by simp) hbracket hescape
  | succ below ih =>
    refine satisfiable_tokensWith (fun read hread part hpart => ?_) hbracket hescape
    obtain rfl := Option.some.inj hread
    exact ih (fun hmem => hbracket (hpart hmem)) fun hmem => hescape (hpart hmem)

/-! ### Patterns -/

mutual

theorem Token.everyClass_of_occursAt {holds : CharClass → Prop} : ∀ (token : Token),
    (∀ depth cls, OccursAt (.charClass cls) depth [token] → holds cls) → token.EveryClass holds
  | .charClass cls, h => h 0 cls (.top List.mem_cons_self)
  | .group branches, h => everyClassOfAll_of_occursAt branches fun _ hbranch depth cls hcls =>
    h (depth + 1) cls (.inside List.mem_cons_self hbranch hcls)
  | .literal _, _ | .star, _ | .globStar, _ | .question, _ | .never, _ => trivial

theorem everyClass_of_occursAt {holds : CharClass → Prop} : ∀ (tokens : List Token),
    (∀ depth cls, OccursAt (.charClass cls) depth tokens → holds cls) → EveryClass holds tokens
  | [], _ => trivial
  | token :: tokens, h =>
    ⟨token.everyClass_of_occursAt fun depth cls hcls => h depth cls (hcls.mono (by simp)),
      everyClass_of_occursAt tokens fun depth cls hcls => h depth cls (hcls.mono (List.subset_cons_self _ _))⟩

theorem everyClassOfAll_of_occursAt {holds : CharClass → Prop} : ∀ (branches : List (List Token)),
    (∀ branch ∈ branches, ∀ depth cls, OccursAt (.charClass cls) depth branch → holds cls) →
      EveryClassOfAll holds branches
  | [], _ => trivial
  | branch :: branches, h =>
    ⟨everyClass_of_occursAt branch (h branch List.mem_cons_self),
      everyClassOfAll_of_occursAt branches fun other hother => h other (List.mem_cons_of_mem _ hother)⟩

end

theorem everyClass_wellFormed (s : List Char) : EveryClass CharClass.WellFormed (tokenize s) :=
  everyClass_of_occursAt (tokenize s) fun _ _ => wellFormed_of_occursAt

/-- What stands for itself stands in the text. -/
theorem mem_of_literal_occursAt {levels depth : Nat} {s : List Char} {c : Char}
    (h : OccursAt (.literal c) depth (tokensWithin levels s)) : c ∈ s := by
  obtain ⟨below, part, -, hpart, hmem, -⟩ := exists_read_of_occursAt h
  obtain ⟨branch, hbranch⟩ := exists_tokensWithin_eq below
  rw [hbranch] at hmem
  exact hpart (readFrom_of_mem hmem)

theorem patternBody_suffix (s : List Char) : patternBody s <:+ s := by
  unfold patternBody
  split
  · exact List.suffix_cons _ _
  · exact List.suffix_rfl

theorem escape_notMem_target (raw : String) (path : List Char) : '\\' ∉ (Pattern.compile raw).target path := by
  rw [target_compile]
  split
  · exact escape_notMem_slashed path
  · exact escape_notMem_lastSegment path

/-- A text may be compared with a pattern as it is if it has no backslash, and no `/` unless the pattern has one. -/
theorem target_of_plain {raw : String} {t : List Char} (h : Plain (tokensOf raw) t) :
    (Pattern.compile raw).target t = t := by
  rw [target_compile, slashed_of_not_mem h.escape_notMem]
  split
  · rfl
  · rename_i hslash
    refine lastSegment_of_not_mem fun hmem => hslash ?_
    obtain ⟨depth, hliteral⟩ := h.slash hmem
    exact (patternBody_suffix _).subset (mem_of_literal_occursAt hliteral)

/-- A pattern matches some path when it is not blank and all its tokens are satisfiable. -/
theorem exists_matches_iff_satisfiable (raw : String) :
    (∃ path, (Pattern.compile raw).matches path = true) ↔
      Text.trim raw.toList ≠ [] ∧ Satisfiable (tokensOf raw) := by
  have hclasses : EveryClass CharClass.WellFormed (tokensOf raw) := everyClass_wellFormed _
  constructor
  · rintro ⟨path, hmatch⟩
    have hblank := ((matches_iff_selects raw path).1 hmatch).1
    rw [matches_compile_iff hblank] at hmatch
    exact ⟨hblank, satisfiable_of_matches _ hclasses hmatch (escape_notMem_target raw path.toList)⟩
  · rintro ⟨hblank, hsatisfiable⟩
    obtain ⟨t, ht, hplain⟩ := exists_matches_of_satisfiable _ hclasses hsatisfiable
    refine ⟨String.ofList t, (matches_compile_iff hblank _).2 ?_⟩
    rwa [String.toList_ofList, target_of_plain hplain]

end LineEndings.Glob

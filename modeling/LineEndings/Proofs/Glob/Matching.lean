/-
The matcher decides the language of the tokens.

A table `Answers` a question when it holds the answer for every suffix of the text, longest first; a goal
`Asks` a question when its table, seen past its word, answers it. Every token turns a goal that asks `Q`
into one that asks "starts with a text of the token, and the rest meets `Q`" (`Token.asks_before`), so

* `accepts_iff` — the answer for the whole text says whether the tokens match it;
* `matches_iff_selects` — a compiled pattern matches a path exactly when the pattern is not blank, has no `never`
  at top level, and its tokens match the part of the path that it is compared with.
-/
import LineEndings.Glob.Language
import Mathlib.Data.List.Permutation
import LineEndings.Glob.PatternSet

namespace LineEndings.Glob

/-! ### Tables -/

/-- A table holds the answers of a question for every suffix of a text, longest first. -/
inductive Answers (question : List Char → Prop) : List Char → List Bool → Prop
  | nil {yes : Bool} (h : yes = true ↔ question []) : Answers question [] [yes]
  | cons {c : Char} {s : List Char} {yes : Bool} {table : List Bool}
      (h : yes = true ↔ question (c :: s)) (later : Answers question s table) :
      Answers question (c :: s) (yes :: table)

namespace Answers

variable {question other : List Char → Prop} {text : List Char} {table rest : List Bool}

theorem length (h : Answers question text table) : table.length = text.length + 1 := by
  induction h with
  | nil => rfl
  | cons _ _ ih => rw [List.length_cons, List.length_cons, ih]

theorem head (h : Answers question text table) : table.headD false = true ↔ question text := by
  cases h with
  | nil h => exact h
  | cons h _ => exact h

theorem congr (h : Answers question text table)
    (heq : ∀ s, s <:+ text → (question s ↔ other s)) : Answers other text table := by
  induction h with
  | nil h => exact .nil (h.trans (heq [] List.suffix_rfl))
  | @cons c s _ _ h _ ih =>
    exact .cons (h.trans (heq _ List.suffix_rfl)) (ih fun t ht => heq t (ht.trans (List.suffix_cons c s)))

/-- Every text has one table of the answers of a question that is decided. -/
theorem tableOf (decided : List Char → Bool) (text : List Char) :
    Answers (fun s => decided s = true) text (tableOf decided text) := by
  induction text with
  | nil => exact .nil Iff.rfl
  | cons c s ih => exact .cons Iff.rfl ih

theorem nowhere (text : List Char) : Answers (fun _ => False) text (nowhere text) :=
  (tableOf (fun _ => false) text).congr fun _ _ => by simp

theorem either (h : Answers question text table) (h' : Answers other text rest) :
    Answers (fun s => question s ∨ other s) text (either table rest) := by
  induction h generalizing rest with
  | nil h =>
    cases h' with
    | nil h' => exact .nil (by simp [h, h'])
  | cons h _ ih =>
    cases h' with
    | cons h' later' => exact .cons (by simp [h, h']) (ih later')

theorem afterOne {admits : Char → Bool} (h : Answers question text table) :
    Answers (fun s => ∃ c r, s = c :: r ∧ admits c = true ∧ question r) text
      (afterOne admits text table) := by
  induction h with
  | nil h => exact .nil (by simp)
  | @cons c s yes table h later ih =>
    refine .cons ?_ ih
    rw [List.tail_cons, Bool.and_eq_true, later.head]
    constructor
    · rintro ⟨hc, hq⟩
      exact ⟨c, s, rfl, hc, hq⟩
    · rintro ⟨_, _, hcs, hc, hq⟩
      obtain ⟨rfl, rfl⟩ := List.cons.inj hcs
      exact ⟨hc, hq⟩

theorem afterRun {admits : Char → Bool} (h : Answers question text table) :
    Answers (fun s => ∃ u v, s = u ++ v ∧ (∀ c ∈ u, admits c = true) ∧ question v) text
      (afterRun admits text table) := by
  induction h with
  | nil h =>
    refine .nil (h.trans ⟨fun hq => ⟨[], [], rfl, by simp, hq⟩, ?_⟩)
    rintro ⟨u, v, huv, -, hv⟩
    obtain ⟨-, rfl⟩ := List.append_eq_nil_iff.1 huv.symm
    exact hv
  | @cons c s yes table h later ih =>
    refine .cons ?_ ih
    simp only [List.tail_cons, List.headD_cons, Bool.or_eq_true, Bool.and_eq_true, h, ih.head]
    constructor
    · rintro (hq | ⟨hc, u, v, rfl, hu, hv⟩)
      · exact ⟨[], c :: s, rfl, by simp, hq⟩
      · exact ⟨c :: u, v, rfl, by simpa [hc] using hu, hv⟩
    · rintro ⟨u, v, huv, hu, hv⟩
      cases u with
      | nil => exact Or.inl (huv ▸ hv)
      | cons d u =>
        obtain ⟨rfl, rfl⟩ := List.cons.inj huv
        exact Or.inr ⟨hu c (by simp), u, v, rfl, fun d hd => hu d (by simp [hd]), hv⟩

theorem drop (h : Answers question text table) {n : Nat} (hn : n ≤ text.length) :
    Answers question (text.drop n) (table.drop n) := by
  induction h generalizing n with
  | nil h =>
    obtain rfl : n = 0 := Nat.le_zero.1 hn
    exact .nil h
  | cons h later ih =>
    cases n with
    | zero => exact .cons h later
    | succ n => exact ih (by simpa using hn)

/-- Past a word, a table holds the answers for what follows the word. -/
theorem afterWord {word : List Char} (h : Answers question text table) :
    Answers (fun s => ∃ r, s = word ++ r ∧ question r) text
      (afterWord word text (table.drop word.length)) := by
  induction h with
  | @nil yes h =>
    cases word with
    | nil => exact .nil (by simp [h])
    | cons d w =>
      rw [List.length_cons, List.drop_succ_cons, List.drop_nil]
      exact (nowhere []).congr fun s hs => by simp [List.suffix_nil.1 hs]
  | @cons c s yes table h later ih =>
    have hlater : ((yes :: table).drop word.length).tail = table.drop word.length := by
      rw [List.tail_drop, List.drop_succ_cons]
    by_cases hlen : word.length ≤ (c :: s).length
    · -- The word may start here: the answer past it is where the table goes on.
      have hpast := ((Answers.cons h later).drop hlen).head
      cases hd : (yes :: table).drop word.length with
      | nil =>
        have := (Answers.cons h later).length
        rw [List.drop_eq_nil_iff] at hd
        omega
      | cons y rest =>
        rw [hd] at hpast hlater
        rw [List.headD_cons] at hpast
        rw [List.tail_cons] at hlater
        subst hlater
        refine .cons ?_ ih
        rw [Bool.and_eq_true, hpast, List.isPrefixOf_iff_prefix]
        constructor
        · rintro ⟨hq, r, hr⟩
          rw [← hr, List.drop_left] at hq
          exact ⟨r, hr.symm, hq⟩
        · rintro ⟨r, hr, hq⟩
          rw [hr, List.drop_left]
          exact ⟨hq, List.prefix_append word r⟩
    · -- The word is longer than what is left, so it starts nowhere.
      rw [List.drop_eq_nil_iff.2 (by rw [(Answers.cons h later).length]; omega)]
      refine (nowhere (c :: s)).congr fun t ht => ?_
      refine ⟨False.elim, ?_⟩
      rintro ⟨r, rfl, -⟩
      have := ht.length_le
      rw [List.length_append] at this
      omega

end Answers

/-! ### Goals -/

/-- A goal asks a question of the suffixes of a text. -/
def Goal.Asks (goal : Goal) (text : List Char) (question : List Char → Prop) : Prop :=
  ∃ later : List Char → Prop, Answers later text goal.table ∧
    ∀ s, question s ↔ ∃ r, s = goal.word ++ r ∧ later r

section

variable {text : List Char} {goal : Goal} {question other : List Char → Prop}

theorem Goal.Asks.settle (h : goal.Asks text question) :
    Answers question text (goal.settle text) := by
  obtain ⟨later, htable, hq⟩ := h
  exact htable.afterWord.congr fun s _ => (hq s).symm

theorem Goal.asks_table {table : List Bool} (h : Answers question text table) :
    Goal.Asks ⟨[], table⟩ text question :=
  ⟨question, h, fun s => by simp⟩

theorem Goal.Asks.congr (h : goal.Asks text question) (heq : ∀ s, question s ↔ other s) :
    goal.Asks text other := by
  obtain ⟨later, htable, hq⟩ := h
  exact ⟨later, htable, fun s => (heq s).symm.trans (hq s)⟩

/-- What a literal turns a goal into. -/
theorem Goal.Asks.literal (h : goal.Asks text question) (c : Char) :
    Goal.Asks ⟨c :: goal.word, goal.table⟩ text fun s => ∃ r, s = c :: r ∧ question r := by
  obtain ⟨later, htable, hq⟩ := h
  refine ⟨later, htable, fun s => ?_⟩
  constructor
  · rintro ⟨t, rfl, ht⟩
    obtain ⟨r, rfl, hr⟩ := (hq t).1 ht
    exact ⟨r, rfl, hr⟩
  · rintro ⟨r, rfl, hr⟩
    exact ⟨goal.word ++ r, rfl, (hq _).2 ⟨r, rfl, hr⟩⟩

end

/-- A text of one character, and what comes after it. -/
theorem exists_append_one {admits : Char → Prop} {question : List Char → Prop} {s : List Char} :
    (∃ u v, s = u ++ v ∧ (∃ c, admits c ∧ u = [c]) ∧ question v) ↔
      ∃ c r, s = c :: r ∧ admits c ∧ question r := by
  constructor
  · rintro ⟨_, v, rfl, ⟨c, hc, rfl⟩, hv⟩
    exact ⟨c, v, rfl, hc, hv⟩
  · rintro ⟨c, r, rfl, hc, hr⟩
    exact ⟨[c], r, rfl, ⟨c, hc, rfl⟩, hr⟩

/-! ### Tokens -/

section

variable {text : List Char}

mutual

/-- A token before a goal asks for a text of the token, and then for what the goal asks. -/
theorem Token.asks_before : ∀ (token : Token) {goal : Goal} {question : List Char → Prop},
    goal.Asks text question → (token.before text goal).Asks text
      fun s => ∃ u v, s = u ++ v ∧ token.Matches CharClass.admits u ∧ question v
  | .literal c, _, _, h => by
    refine (h.literal c).congr fun s => ?_
    constructor
    · rintro ⟨r, rfl, hr⟩
      exact ⟨[c], r, rfl, rfl, hr⟩
    · rintro ⟨_, v, rfl, rfl, hv⟩
      exact ⟨v, rfl, hv⟩
  | .star, _, _, h => by
    refine (Goal.asks_table h.settle.afterRun).congr fun s => ?_
    simp only [Token.Matches, List.forall_mem_ne', bne_iff_ne]
  | .globStar, _, _, h =>
    (Goal.asks_table h.settle.afterRun).congr fun s => by simp [Token.Matches]
  | .question, _, _, h => by
    refine (Goal.asks_table h.settle.afterOne).congr fun s => ?_
    simp only [Token.Matches, exists_append_one, bne_iff_ne]
  | .charClass cls, _, _, h =>
    (Goal.asks_table h.settle.afterOne).congr fun s => by simp only [Token.Matches, exists_append_one]
  | .group branches, _, _, h =>
    Goal.asks_table (answers_beforeSome branches h)
  | .never, _, _, _ =>
    (Goal.asks_table (Answers.nowhere text)).congr fun s => by simp [Token.Matches]

/-- The same for a sequence of tokens. -/
theorem asks_beforeAll : ∀ (tokens : List Token) {goal : Goal} {question : List Char → Prop},
    goal.Asks text question → (beforeAll text goal tokens).Asks text
      fun s => ∃ u v, s = u ++ v ∧ Matches CharClass.admits tokens u ∧ question v
  | [], _, _, h => by
    refine h.congr fun s => ⟨fun hq => ⟨[], s, rfl, rfl, hq⟩, ?_⟩
    rintro ⟨_, v, rfl, rfl, hv⟩
    exact hv
  | token :: tokens, _, _, h => by
    refine (token.asks_before (asks_beforeAll tokens h)).congr fun s => ?_
    constructor
    · rintro ⟨u, _, rfl, hu, v, w, rfl, hv, hw⟩
      exact ⟨u ++ v, w, (List.append_assoc u v w).symm, ⟨u, v, rfl, hu, hv⟩, hw⟩
    · rintro ⟨_, w, rfl, ⟨u, v, rfl, hu, hv⟩, hw⟩
      exact ⟨u, v ++ w, List.append_assoc u v w, hu, v, w, rfl, hv, hw⟩

/-- The same for the branches of a group. -/
theorem answers_beforeSome : ∀ (branches : List (List Token)) {goal : Goal}
    {question : List Char → Prop}, goal.Asks text question → Answers
      (fun s => ∃ u v, s = u ++ v ∧ SomeBranch CharClass.admits branches u ∧ question v) text
      (beforeSome text goal branches)
  | [], _, _, _ => (Answers.nowhere text).congr fun s _ => by simp [SomeBranch]
  | branch :: branches, _, _, h => by
    refine ((asks_beforeAll branch h).settle.either (answers_beforeSome branches h)).congr
      fun s _ => ?_
    constructor
    · rintro (⟨u, v, huv, hu, hv⟩ | ⟨u, v, huv, hu, hv⟩)
      · exact ⟨u, v, huv, Or.inl hu, hv⟩
      · exact ⟨u, v, huv, Or.inr hu, hv⟩
    · rintro ⟨u, v, huv, hu | hu, hv⟩
      · exact Or.inl ⟨u, v, huv, hu, hv⟩
      · exact Or.inr ⟨u, v, huv, hu, hv⟩

end

end

/-- The matcher decides the language of the tokens. -/
theorem accepts_iff (tokens : List Token) (text : List Char) :
    accepts tokens text = true ↔ Matches CharClass.admits tokens text := by
  have hend : Goal.Asks ⟨[], tableOf List.isEmpty text⟩ text fun s => s.isEmpty = true :=
    Goal.asks_table (Answers.tableOf List.isEmpty text)
  rw [accepts, (asks_beforeAll tokens hend).settle.head]
  simp

/-! ### Bracket expressions that ask for a named class -/

theorem named?_eq_some_iff {cls : CharClass} {named : NamedClass} :
    cls.named? = some named ↔ cls = ⟨false, named.items⟩ := by
  obtain ⟨negated, items⟩ := cls
  constructor
  · intro h
    rw [CharClass.named?] at h
    split at h
    · cases h
    · rename_i hneg
      obtain ⟨front, back, hall, -⟩ := List.lookup_eq_some_iff.1 h
      have hmem : (items, named) ∈ NamedClass.byItems := by simp [hall]
      obtain ⟨_, -, heq⟩ := List.mem_map.1 hmem
      obtain ⟨rfl, rfl⟩ := Prod.mk.inj heq
      simpa using hneg
  · rintro h
    obtain ⟨rfl, rfl⟩ := CharClass.mk.inj h
    cases named <;> decide

/-- A bracket expression stands for what it lists unless it asks for a named class, and a named class is
never what its name lists. -/
theorem admits_eq_lists_iff (cls : CharClass) :
    (∀ c, cls.admits c = cls.lists c) ↔ cls.named? = none := by
  constructor
  · intro h
    cases hnamed : cls.named? with
    | none => rfl
    | some named =>
      obtain rfl := named?_eq_some_iff.1 hnamed
      -- A colon is listed and belongs to few classes; an exclamation mark belongs to those and is not listed.
      have hcolon := h ':'
      have hmark := h '!'
      cases named <;> revert hcolon hmark <;> decide
  · intro h c
    rw [CharClass.admits, h]

/-! ### Patterns -/

/-- The tokens of a pattern as it was written. -/
def tokensOf (raw : String) : List Token :=
  tokenize (patternBody (Text.trim raw.toList))

/-- Whether a pattern as it was written selects a path, where bracket expressions have a given reading:
it is not blank, it can match, and its tokens match the path, or the last segment of the path if there is
no slash in the pattern. -/
def Selects (reading : Reading) (raw path : String) : Prop :=
  Text.trim raw.toList ≠ [] ∧ Token.never ∉ tokensOf raw ∧
    Matches reading (tokensOf raw)
      (if '/' ∈ Text.trim raw.toList then slashed path.toList else lastSegment (slashed path.toList))

theorem dead_eq_true_iff {tokens : List Token} : dead tokens = true ↔ Token.never ∈ tokens := by
  rw [dead, List.any_eq_true]
  constructor
  · rintro ⟨token, hmem, htoken⟩
    cases token with
    | never => exact hmem
    | _ => cases htoken
  · intro hmem
    exact ⟨.never, hmem, rfl⟩

theorem slashed_of_not_mem {s : List Char} (h : '\\' ∉ s) : slashed s = s := by
  refine (List.map_congr_left fun c hc => ?_).trans (List.map_id s)
  rw [if_neg (by rintro rfl; exact h hc)]
  rfl

theorem slashed_append (s t : List Char) : slashed (s ++ t) = slashed s ++ slashed t :=
  List.map_append

theorem notMem_slashed {c : Char} {s : List Char} (hslash : c ≠ '/') (h : c ∉ s) : c ∉ slashed s := by
  intro hmem
  obtain ⟨d, hd, heq⟩ := List.mem_map.1 hmem
  split at heq
  · exact hslash heq.symm
  · exact h (heq ▸ hd)

theorem escape_notMem_slashed (s : List Char) : '\\' ∉ slashed s := by
  intro hmem
  obtain ⟨c, -, hc⟩ := List.mem_map.1 hmem
  split at hc
  · exact absurd hc (by decide)
  · rename_i hne
    exact hne hc

theorem target_compile (raw : String) (path : List Char) :
    (Pattern.compile raw).target path =
      if '/' ∈ Text.trim raw.toList then slashed path else lastSegment (slashed path) := by
  unfold Pattern.target Pattern.compile
  by_cases hslash : '/' ∈ Text.trim raw.toList
  · simp only [if_pos hslash]
  · simp only [if_neg hslash]

/-- A compiled pattern matches the paths that the pattern selects. -/
theorem matches_iff_selects (raw path : String) :
    (Pattern.compile raw).matches path = true ↔ Selects CharClass.admits raw path := by
  have htokens : (Pattern.compile raw).tokens? =
      if (Text.trim raw.toList).isEmpty || dead (tokensOf raw) then none else some (tokensOf raw) := rfl
  rw [Pattern.matches, htokens, target_compile, Selects, ← dead_eq_true_iff]
  by_cases hblank : Text.trim raw.toList = []
  · simp [hblank]
  · by_cases hdead : dead (tokensOf raw) = true
    · simp [hdead]
    · simp only [Bool.not_eq_true] at hdead
      simp [hblank, hdead, accepts_iff]

/-- A pattern that is not blank matches what its tokens match. -/
theorem matches_compile_iff {raw : String} (hblank : Text.trim raw.toList ≠ []) (path : String) :
    (Pattern.compile raw).matches path = true ↔
      Matches CharClass.admits (tokensOf raw) ((Pattern.compile raw).target path.toList) := by
  rw [matches_iff_selects, Selects, ← target_compile]
  constructor
  · exact fun h => h.2.2
  · exact fun hmatch => ⟨hblank, fun hnever => not_matches_of_dead (dead_eq_true_iff.2 hnever) hmatch, hmatch⟩

/-- Blank patterns match nothing, so leaving them out of a set makes no difference. -/
theorem PatternSet.matches_ofList {raws : List String} {path : String} :
    (PatternSet.ofList raws).matches path = true ↔
      ∃ raw ∈ raws, (Pattern.compile raw).matches path = true := by
  unfold PatternSet.ofList PatternSet.matches
  rw [List.any_eq_true]
  constructor
  · rintro ⟨_, hmem, hmatch⟩
    obtain ⟨raw, hraw, rfl⟩ := List.mem_map.1 hmem
    exact ⟨raw, (List.mem_filter.1 hraw).1, hmatch⟩
  · rintro ⟨raw, hraw, hmatch⟩
    refine ⟨_, List.mem_map.2 ⟨raw, List.mem_filter.2 ⟨hraw, ?_⟩, rfl⟩, hmatch⟩
    rw [Bool.not_eq_true', Bool.eq_false_iff]
    intro hblank
    have htrim : Text.trim raw.toList = [] := Text.trim_of_allBlank hblank
    simp [Pattern.matches, Pattern.compile, htrim] at hmatch

/-- What a compiled pattern matches, bracket expressions included. A bracket expression stands for what
it lists, with one exception: one that lists the name of a class between two colons and nothing else
stands for that class. So the rule "a bracket expression stands for what it lists" holds of every pattern
without such a name, and it is wrong of every bracket expression with one. -/
theorem matches_iff_selects_lists (raw path : String) :
    ((Pattern.compile raw).matches path = true ↔ Selects CharClass.admits raw path) ∧
      (EveryClass (·.named? = none) (tokensOf raw) →
        ((Pattern.compile raw).matches path = true ↔ Selects CharClass.lists raw path)) ∧
      ∀ cls : CharClass, (∀ c, cls.admits c = cls.lists c) ↔ cls.named? = none := by
  refine ⟨matches_iff_selects raw path, fun hplain => ?_, admits_eq_lists_iff⟩
  rw [matches_iff_selects, Selects, Selects,
    matches_congr (fun cls hcls => (admits_eq_lists_iff cls).2 hcls) _ hplain]

theorem matches_abc_as_listed :
    EveryClass (·.named? = none) (tokensOf "[a-c]x") ∧
      ((Pattern.compile "[a-c]x").matches "d/bx" = true ↔ Selects CharClass.lists "[a-c]x" "d/bx") := by
  have htokens : tokensOf "[a-c]x" = [.charClass ⟨false, [.range 'a' 'c']⟩, .literal 'x'] := by cbv
  have hplain : EveryClass (·.named? = none) (tokensOf "[a-c]x") := by
    rw [htokens]
    exact ⟨by simp only [Token.EveryClass]; decide, trivial, trivial⟩
  exact ⟨hplain, (matches_iff_selects_lists "[a-c]x" "d/bx").2.1 hplain⟩

/-- The name `alpha` is no list of letters: its pattern matches a letter that is not in it. -/
theorem matches_alpha_not_as_listed :
    (Pattern.compile "[:alpha:]").matches "b" = true ∧ ¬ Selects CharClass.lists "[:alpha:]" "b" := by
  have htokens : tokensOf "[:alpha:]" = [.charClass ⟨false, NamedClass.alpha.items⟩] := by cbv
  have htrim : Text.trim "[:alpha:]".toList = "[:alpha:]".toList := by cbv
  have hslash : '/' ∉ "[:alpha:]".toList := by decide
  have htarget : lastSegment (slashed "b".toList) = ['b'] := by decide
  constructor
  · rw [matches_iff_selects, Selects, htrim, htokens, if_neg hslash, htarget]
    refine ⟨by decide, by simp, ['b'], [], rfl, ⟨'b', by decide, rfl⟩, rfl⟩
  · rintro ⟨-, -, hmatch⟩
    rw [htrim, htokens, if_neg hslash, htarget] at hmatch
    obtain ⟨_, _, huv, ⟨c, hc, rfl⟩, rfl⟩ := hmatch
    obtain ⟨rfl, -⟩ := List.cons.inj huv
    exact absurd hc (by decide)

end LineEndings.Glob

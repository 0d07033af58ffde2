/-
A pattern matches what its expansions match.

Groups are read as tokens with branches, and never expanded. A text that has no bracket expression and nests
its groups no deeper than they are read matches the same as its expansions do, provided that expanding
does not bring together two stars, which would be read as one token
(`matches_tokenize_iff_expansion`). What is left of a group has no braces, and its tokens stand apart from those
that follow (`tokensWith_append`).
-/
import LineEndings.Glob.Language
import LineEndings.Proofs.Glob.Choosing

namespace LineEndings.Glob

open Brace

/-! ### Patterns that can be expanded -/

/-- Whether every `[` in a text stands behind a backslash. -/
def bracketFree : List Char → Bool
  | [] => true
  | ['\\'] => true
  | '\\' :: _ :: s => bracketFree s
  | c :: s => c != '[' && bracketFree s

/-- How deep the groups of a text nest. -/
def nesting : List Char → Nat
  | [] => 0
  | ['\\'] => 0
  | '\\' :: _ :: s => nesting s
  | c :: s =>
    if c = '{' then
      match _h : split? 0 s with
      | some (inside, rest) => max (nesting inside + 1) (nesting rest)
      | none => nesting s
    else nesting s
  termination_by s => s.length
  decreasing_by
    all_goals try rw [eq_append_of_split? _h]
    all_goals simp only [List.length_cons, List.length_append]
    all_goals omega

/-- Whether stars that stand together, none of them behind a backslash, have consecutive places. -/
def starsAsWritten : List Placed → Bool
  | [] => true
  | [_] => true
  | c :: d :: s =>
    if c.1 = '\\' then starsAsWritten s
    else (c.1 != '*' || d.1 != '*' || d.2 == c.2 + 1) && starsAsWritten (d :: s)

variable {n m k : Nat} {i j : Nat} {c : Placed} {s x y inside rest : List Placed}

theorem bracketFree_single (hc : c.1 ≠ '\\') (s : List Placed) :
    bracketFree (text (c :: s)) = (c.1 != '[' && bracketFree (text s)) := by
  rw [text_cons, bracketFree]
  · exact fun h => absurd h hc
  · exact fun _ _ h => absurd h hc

theorem bracketFree_append (hx : Units x) (y : List Placed) :
    bracketFree (text (x ++ y)) = (bracketFree (text x) && bracketFree (text y)) := by
  induction hx with
  | nil => rfl
  | escape _ ih =>
    simp only [List.cons_append, text_cons, bracketFree]
    exact ih
  | single hc _ ih =>
    rw [List.cons_append, bracketFree_single hc, bracketFree_single hc, ih, Bool.and_assoc]

theorem nesting_escape (c : Char) (s : List Char) : nesting ('\\' :: c :: s) = nesting s := by
  rw [nesting]

theorem nesting_plain {c : Char} {s : List Char} (hc : c ≠ '\\') (hopen : c = '{' → split? 0 s = none) :
    nesting (c :: s) = nesting s := by
  rw [nesting]
  · split
    · rename_i hopening
      split
      · rename_i hsplit
        rw [hopen hopening] at hsplit
        cases hsplit
      · rfl
    · rfl
  · exact fun h => absurd h hc
  · exact fun _ _ h => absurd h hc

theorem nesting_group (h : Balanced inside) :
    nesting (text (('{', i) :: (inside ++ ('}', j) :: rest))) =
      max (nesting (text inside) + 1) (nesting (text rest)) := by
  have hsplit : split? 0 (text (inside ++ ('}', j) :: rest)) = some (text inside, text rest) := split?_group h
  rw [text_cons, nesting, if_pos rfl]
  · split
    · rename_i hfound
      rw [hsplit] at hfound
      obtain ⟨rfl, rfl⟩ := Prod.mk.inj (Option.some.inj hfound)
      rfl
    · rename_i hnone
      rw [hsplit] at hnone
      cases hnone
  · simp
  · simp

/-- Without groups there is nothing that nests. -/
theorem nesting_of_not_hasGroup {p : List Placed}
    (h : ∀ before inside after, ¬ HasGroup p before inside after) : nesting (text p) = 0 := by
  induction p using patternInduction with
  | nil => rw [text_nil, nesting]
  | lone i => rw [text_cons, text_nil, nesting]
  | escape i c s ih =>
    rw [text_cons, text_cons, nesting_escape]
    exact ih fun before inside after hgroup => h _ _ _ (hasGroup_escape_iff.2 ⟨before, rfl, hgroup⟩)
  | plain c s hc hopen ih =>
    rw [text_cons, nesting_plain hc hopen]
    exact ih fun before inside after hgroup =>
      h _ _ _ ((hasGroup_single_iff hc).2 (Or.inr ⟨before, rfl, hgroup⟩))
  | group i inside j rest hinside _ _ => exact absurd ⟨.nil, hinside, i, j, rfl⟩ (h [] inside rest)

/-! ### Parts and choices -/

theorem bracketFree_of_mem_partsFrom {part : List Placed} (h : bracketFree (text s) = true)
    (hpart : part ∈ partsFrom n s) : bracketFree (text part) = true := by
  induction s using unitInduction generalizing n part with
  | nil =>
    rw [List.mem_singleton.1 hpart]
    rfl
  | lone i =>
    rw [List.mem_singleton.1 hpart]
    rfl
  | escape i c s ih =>
    have hs : bracketFree (text s) = true := by
      simpa only [text_cons, bracketFree] using h
    rw [partsFrom_escape] at hpart
    rcases mem_prependFirst (partsFrom_ne_nil n s) hpart with hpart | ⟨first, hfirst, rfl⟩
    · exact ih hs hpart
    · rw [bracketFree_append (.escape .nil), ih hs hfirst]
      rfl
  | single c s hc ih =>
    rw [bracketFree_single hc, Bool.and_eq_true] at h
    obtain ⟨hbracket, hs⟩ := h
    rw [partsFrom_single hc] at hpart
    split at hpart
    · rcases List.mem_cons.1 hpart with rfl | hpart
      · rfl
      · exact ih hs hpart
    · rcases mem_prependFirst (partsFrom_ne_nil _ s) hpart with hpart | ⟨first, hfirst, rfl⟩
      · exact ih hs hpart
      · rw [List.singleton_append, bracketFree_single hc, hbracket, ih hs hfirst]
        rfl

theorem nesting_le_of_mem_parts {part : List Placed} (h : Balanced s) (hpart : part ∈ parts s) :
    nesting (text part) ≤ nesting (text s) := by
  refine balancedInduction (motive := fun s => ∀ part ∈ parts s, nesting (text part) ≤ nesting (text s))
    ?nil ?escape ?plain ?group h part hpart
  case nil =>
    intro part hpart
    obtain rfl := List.mem_singleton.1 hpart
    exact Nat.le_refl _
  case escape =>
    intro i c s ih part hpart
    rw [text_cons, text_cons, nesting_escape]
    rw [parts, partsFrom_escape] at hpart
    rcases mem_prependFirst (partsFrom_ne_nil 0 s) hpart with hpart | ⟨first, hfirst, rfl⟩
    · exact ih part hpart
    · exact Nat.le_trans (Nat.le_of_eq (nesting_escape c.1 (text first))) (ih first hfirst)
  case plain =>
    intro c s hc ih part hpart
    have hnesting : ∀ t, nesting (text (c :: t)) = nesting (text t) :=
      fun t => nesting_plain hc.1 fun h => absurd h hc.2.1
    rw [hnesting]
    by_cases hcomma : c.1 = ',' ∧ 0 = 0
    · rw [parts, partsFrom_single hc.1, if_pos hcomma] at hpart
      rcases List.mem_cons.1 hpart with rfl | hpart
      · rw [text_nil, nesting]
        exact Nat.zero_le _
      · exact ih part hpart
    · rw [parts, partsFrom_plain hc hcomma] at hpart
      rcases mem_prependFirst (partsFrom_ne_nil 0 s) hpart with hpart | ⟨first, hfirst, rfl⟩
      · exact ih part hpart
      · exact Nat.le_trans (Nat.le_of_eq (hnesting first)) (ih first hfirst)
  case group =>
    -- The group is in the first part as a whole.
    intro i inside j rest hinside _ ih part hpart
    have heq : ∀ t : List Placed, ('{', i) :: (inside ++ ('}', j) :: t) =
        ('{', i) :: (inside ++ [('}', j)]) ++ t := fun t => by simp
    rw [nesting_group hinside]
    rw [heq, parts, (solid_group hinside).partsFrom_append] at hpart
    rcases mem_prependFirst (partsFrom_ne_nil 0 rest) hpart with hpart | ⟨first, hfirst, rfl⟩
    · exact Nat.le_trans (ih part hpart) (Nat.le_max_right _ _)
    · rw [← heq, nesting_group hinside]
      have hfirst' := Nat.le_trans (ih first hfirst) (Nat.le_max_right (nesting (text inside) + 1) _)
      exact Nat.max_le.2 ⟨Nat.le_max_left _ _, hfirst'⟩

theorem bracketFree_of_chooses {p e : List Placed} (h : Chooses p e) (hp : bracketFree (text p) = true) :
    bracketFree (text e) = true := by
  induction h with
  | nil => rfl
  | lone => rfl
  | escape _ ih =>
    simp only [text_cons, bracketFree] at hp ⊢
    exact ih hp
  | plain hc _ _ ih =>
    rw [bracketFree_single hc, Bool.and_eq_true] at hp ⊢
    exact ⟨hp.1, ih hp.2⟩
  | @group i j inside rest part e e' hinside hpart h _ ih ih' =>
    have hleft := flat_of_chooses (solid_of_mem_parts hinside hpart).balanced h
    rw [bracketFree_single (by simp), bracketFree_append hinside.units, bracketFree_single (by simp),
      Bool.and_eq_true, Bool.and_eq_true, Bool.and_eq_true] at hp
    rw [bracketFree_append hleft.balanced.units, ih (bracketFree_of_mem_partsFrom hp.2.1 hpart),
      ih' hp.2.2.2]
    rfl

theorem starsAsWritten_of_single (hc : c.1 ≠ '\\') (h : starsAsWritten (c :: s) = true) :
    starsAsWritten s = true := by
  cases s with
  | nil => rfl
  | cons d s =>
    rw [starsAsWritten, if_neg hc, Bool.and_eq_true] at h
    exact h.2

theorem starsAsWritten_left (h : starsAsWritten (x ++ y) = true) : starsAsWritten x = true := by
  induction x using unitInduction with
  | nil => rfl
  | lone i => rfl
  | escape i c s ih => exact ih h
  | single c s hc ih =>
    have hs := ih (starsAsWritten_of_single hc h)
    cases s with
    | nil => rfl
    | cons d s =>
      rw [List.cons_append, List.cons_append, starsAsWritten, if_neg hc, Bool.and_eq_true] at h
      rw [starsAsWritten, if_neg hc, h.1, hs]
      rfl

theorem starsAsWritten_right (hx : Units x) (h : starsAsWritten (x ++ y) = true) :
    starsAsWritten y = true := by
  induction hx with
  | nil => exact h
  | escape _ ih => exact ih h
  | single hc _ ih => exact ih (starsAsWritten_of_single hc h)

/-- A single star has no other next to it. -/
theorem starsAsWritten_of_count_le_one (h : (text s).count '*' ≤ 1) : starsAsWritten s = true := by
  induction s using unitInduction with
  | nil => rfl
  | lone i => rfl
  | escape i c s ih =>
    have hs : (text s).count '*' ≤ (text (('\\', i) :: c :: s)).count '*' :=
      (((List.sublist_cons_self c s).trans (List.sublist_cons_self _ _)).map Prod.fst).count_le '*'
    exact ih (Nat.le_trans hs h)
  | single c s hc ih =>
    have hs := ih (Nat.le_trans (((List.sublist_cons_self c s).map Prod.fst).count_le '*') h)
    cases s with
    | nil => rfl
    | cons d s =>
      rw [starsAsWritten, if_neg hc, hs, Bool.and_true]
      by_cases hboth : c.1 = '*' ∧ d.1 = '*'
      · rw [text_cons, text_cons, hboth.1, hboth.2, List.count_cons_self, List.count_cons_self] at h
        omega
      · rcases not_and_or.1 hboth with hc | hd
        · simp [hc]
        · simp [hd]

/-! ### Tokens -/

/-- Induction over a pattern as it is read, one star or two at a time. -/
@[elab_as_elim]
theorem tokenInduction {motive : List Placed → Prop} (nil : motive [])
    (lone : ∀ i, motive [('\\', i)])
    (escape : ∀ i c s, motive s → motive (('\\', i) :: c :: s))
    (stars : ∀ i j s, motive s → motive (('*', i) :: ('*', j) :: s))
    (star : ∀ i s, (∀ j t, s ≠ ('*', j) :: t) → motive s → motive (('*', i) :: s))
    (plain : ∀ c s, c.1 ≠ '\\' → c.1 ≠ '*' → (c.1 = '{' → split? 0 (text s) = none) →
      motive s → motive (c :: s))
    (group : ∀ i inside j rest, Balanced inside → (∀ part ∈ parts inside, motive part) →
      motive rest → motive (('{', i) :: (inside ++ ('}', j) :: rest))) (p : List Placed) : motive p := by
  -- With a star in front, what follows it is read from its second character on, so that is known as well.
  have hboth : motive p ∧ ∀ i t, p = ('*', i) :: t → motive t := by
    induction p using patternInduction with
    | nil => exact ⟨nil, fun i t h => by cases h⟩
    | lone j => exact ⟨lone j, fun i t h => by cases h⟩
    | escape j c s ih => exact ⟨escape j c s ih.1, fun i t h => by cases h⟩
    | plain c s hc hopen ih =>
      refine ⟨?_, fun i t h => (List.cons.inj h).2 ▸ ih.1⟩
      obtain ⟨c, i⟩ := c
      by_cases hstar : c = '*'
      · subst hstar
        by_cases hnext : ∃ j t, s = ('*', j) :: t
        · obtain ⟨j, t, rfl⟩ := hnext
          exact stars i j t (ih.2 j t rfl)
        · exact star i s (fun j t h => hnext ⟨j, t, h⟩) ih.1
      · exact plain (c, i) s hc hstar hopen ih.1
    | group i inside j rest hinside ihparts ih =>
      refine ⟨group i inside j rest hinside (fun part hpart => (ihparts part hpart).1) ih.1, ?_⟩
      intro i' t h
      cases h
  exact hboth.1

theorem text_ne_star (h : ∀ j t, s ≠ ('*', j) :: t) (t : List Char) : text s ≠ '*' :: t := by
  intro ht
  cases s with
  | nil => cases ht
  | cons c s => exact h c.2 s (by rw [← (List.cons.inj ht).1])

variable {branch : Option (List Char → List Token)}

/-- The token of a character that stands for itself, or for any. -/
def plainToken (c : Char) : Token :=
  if c = '?' then .question else .literal c

theorem tokensWith_nil : tokensWith branch [] = [] := by
  rw [tokensWith]

theorem tokensWith_escape (c : Char) (s : List Char) :
    tokensWith branch ('\\' :: c :: s) = .literal c :: tokensWith branch s := by
  rw [tokensWith]
  rfl

theorem tokensWith_lone : tokensWith branch ['\\'] = [.literal '\\'] := by
  rw [tokensWith]
  show _ :: tokensWith branch [] = _
  rw [tokensWith_nil]
  rfl

theorem tokensWith_stars (s : List Char) :
    tokensWith branch ('*' :: '*' :: s) = .globStar :: tokensWith branch s := by
  rw [tokensWith]
  rfl

theorem readToken_star {s : List Char} (h : ∀ t, s ≠ '*' :: t) : readToken branch '*' s = (.star, s) := by
  rw [readToken]
  exact h

theorem tokensWith_star {s : List Char} (h : ∀ t, s ≠ '*' :: t) :
    tokensWith branch ('*' :: s) = .star :: tokensWith branch s := by
  rw [tokensWith, readToken_star h]

theorem readToken_plain {c : Char} {s : List Char} (hescape : c ≠ '\\') (hstar : c ≠ '*')
    (hbracket : c ≠ '[') (hopen : branch = none ∨ (c = '{' → split? 0 s = none)) :
    readToken branch c s = (plainToken c, s) := by
  unfold readToken plainToken
  split
  · exact absurd rfl hescape
  · exact absurd rfl hstar
  · rfl
  · exact absurd rfl hbracket
  · rcases hopen with rfl | hopen
    · rfl
    · rw [hopen rfl]
      split <;> simp_all
  · rename_i hquestion _ _
    rw [if_neg hquestion]

theorem tokensWith_plain {c : Char} {s : List Char} (hescape : c ≠ '\\') (hstar : c ≠ '*')
    (hbracket : c ≠ '[') (hopen : branch = none ∨ (c = '{' → split? 0 s = none)) :
    tokensWith branch (c :: s) = plainToken c :: tokensWith branch s := by
  rw [tokensWith, readToken_plain hescape hstar hbracket hopen]

theorem readToken_group {read : List Char → List Token} (h : Balanced inside) :
    readToken (some read) '{' (text (inside ++ ('}', j) :: rest)) = (groupToken read (text inside), text rest) := by
  unfold readToken
  simp only [split?_group h]

theorem tokensWith_group {read : List Char → List Token} (h : Balanced inside) :
    tokensWith (some read) (text (('{', i) :: (inside ++ ('}', j) :: rest))) =
      groupToken read (text inside) :: tokensWith (some read) (text rest) := by
  rw [text_cons, tokensWith, readToken_group h]

/-- The tokens of two texts are read apart, if the first has no braces and no star that stands next to one
of the second. -/
theorem tokensWith_append (hx : Flat x) (hbracket : bracketFree (text x) = true)
    (hstars : starsAsWritten (x ++ y) = true) (hgap : ∀ a ∈ x, ∀ b ∈ y, a.2 + 1 < b.2) :
    tokensWith none (text (x ++ y)) = tokensWith none (text x) ++ tokensWith none (text y) := by
  induction x using tokenInduction with
  | nil =>
    rw [text_nil, tokensWith_nil]
    rfl
  | lone i =>
    cases hx with
    | plain hc _ => exact absurd rfl hc.1
  | escape i c s ih =>
    have hs : bracketFree (text s) = true := by simpa only [text_cons, bracketFree] using hbracket
    have hrest := ih hx.of_escape hs hstars fun a ha => hgap a (by simp [ha])
    simp only [List.cons_append, text_cons, tokensWith_escape, hrest]
  | stars i j s ih =>
    have hone := starsAsWritten_of_single (by simp) hstars
    have htwo := starsAsWritten_of_single (by simp) hone
    rw [bracketFree_single (by simp), bracketFree_single (by simp)] at hbracket
    have hrest := ih ((hx.of_single (by simp)).of_single (by simp)) hbracket htwo
      fun a ha => hgap a (by simp [ha])
    simp only [List.cons_append, text_cons, tokensWith_stars, hrest]
  | star i s hnext ih =>
    rw [bracketFree_single (by simp)] at hbracket
    have hone := starsAsWritten_of_single (by simp) hstars
    have hrest := ih (hx.of_single (by simp)) hbracket hone fun a ha => hgap a (by simp [ha])
    have hleft := text_ne_star hnext
    have hboth : ∀ t, text (s ++ y) ≠ '*' :: t := by
      intro t ht
      cases s with
      | cons c s => exact hleft (text s) (by rw [text_cons, (List.cons.inj ht).1])
      | nil =>
        -- Two stars next to each other would have consecutive places.
        cases y with
        | nil => cases ht
        | cons d y =>
          have hd : d.1 = '*' := (List.cons.inj ht).1
          have hplace := hgap ('*', i) (by simp) d (by simp)
          simp only [List.singleton_append, starsAsWritten, hd] at hstars
          simp at hstars
          omega
    rw [List.cons_append, text_cons, text_cons, tokensWith_star hboth, tokensWith_star hleft, hrest]
    rfl
  | plain c s hc hstar hopen ih =>
    rw [bracketFree_single hc, Bool.and_eq_true, bne_iff_ne] at hbracket
    have hone := starsAsWritten_of_single hc hstars
    have hrest := ih (hx.of_single hc) hbracket.2 hone fun a ha => hgap a (by simp [ha])
    simp only [List.cons_append, text_cons, hrest,
      tokensWith_plain hc hstar hbracket.1 (Or.inl rfl)]
  | group i inside j rest hinside _ _ =>
    cases hx with
    | plain hc _ => exact absurd rfl hc.2.1

/-! ### What expansions match -/

variable {reading : Reading}

/-- A group matches what its branches match; those that are dropped match nothing. -/
theorem groupToken_matches_iff {read : List Char → List Token} {t : List Char} :
    (groupToken read (text inside)).Matches reading t ↔
      ∃ part ∈ parts inside, Matches reading (read (text part)) t := by
  have hbranches : (∃ branch ∈ ((cut (text inside)).map read).filter (!dead ·), Matches reading branch t) ↔
      ∃ part ∈ parts inside, Matches reading (read (text part)) t := by
    rw [← map_text_parts, List.map_map]
    constructor
    · rintro ⟨branch, hbranch, hmatch⟩
      obtain ⟨part, hpart, rfl⟩ := List.mem_map.1 (List.mem_filter.1 hbranch).1
      exact ⟨part, hpart, hmatch⟩
    · rintro ⟨part, hpart, hmatch⟩
      refine ⟨_, List.mem_filter.2 ⟨List.mem_map.2 ⟨part, hpart, rfl⟩, ?_⟩, hmatch⟩
      rw [Bool.not_eq_true', ← Bool.not_eq_true]
      exact fun hdead => not_matches_of_dead hdead hmatch
  rw [groupToken, ← hbranches]
  split
  · rename_i hempty
    rw [List.isEmpty_iff.1 hempty]
    simp [Token.Matches]
  · exact someBranch_iff

/-- Whether something that can be chosen in a pattern matches a text. -/
def SomeChoice (reading : Reading) (p : List Placed) (t : List Char) : Prop :=
  ∃ e, Chooses p e ∧ Matches reading (tokensWith none (text e)) t

theorem someChoice_self {p : List Placed} {t : List Char} (h : ∀ e, Chooses p e ↔ e = p) :
    SomeChoice reading p t ↔ Matches reading (tokensWith none (text p)) t := by
  simp only [SomeChoice, h, exists_eq_left]

/-- What is chosen behind characters that are read as one token. -/
theorem someChoice_iff_of_token {p : List Placed} (front : List Placed) (token : Token) {t : List Char}
    (hchooses : ∀ e, Chooses p e ↔ ∃ e', Chooses s e' ∧ e = front ++ e')
    (htokens : ∀ e, Chooses s e →
      tokensWith none (text (front ++ e)) = token :: tokensWith none (text e)) :
    SomeChoice reading p t ↔
      ∃ u v, t = u ++ v ∧ token.Matches reading u ∧ SomeChoice reading s v := by
  constructor
  · rintro ⟨e, h, hmatch⟩
    obtain ⟨e', h', rfl⟩ := (hchooses e).1 h
    rw [htokens e' h'] at hmatch
    obtain ⟨u, v, rfl, hu, hv⟩ := hmatch
    exact ⟨u, v, rfl, hu, e', h', hv⟩
  · rintro ⟨u, v, rfl, hu, e', h', hv⟩
    refine ⟨front ++ e', (hchooses _).2 ⟨e', h', rfl⟩, ?_⟩
    rw [htokens e' h']
    exact ⟨u, v, rfl, hu, hv⟩

theorem exists_tokensWithin_eq (n : Nat) : ∃ branch, tokensWithin n = tokensWith branch := by
  cases n with
  | zero => exact ⟨none, rfl⟩
  | succ n => exact ⟨some (tokensWithin n), rfl⟩

/-- What is needed of a pattern that is read with `n` levels of groups: it has no bracket expression, nests
its groups no deeper, its places increase, and no choice brings two stars together. -/
structure Expandable (n : Nat) (p : List Placed) : Prop where
  bracketFree : bracketFree (text p) = true
  nesting : nesting (text p) ≤ n
  increasing : p.Pairwise fun a b => a.2 < b.2
  stars : ∀ e, Chooses p e → starsAsWritten e = true

namespace Expandable

variable {part e₁ e₂ : List Placed}

theorem of_escape (h : Expandable n (('\\', i) :: c :: s)) : Expandable n s := by
  refine ⟨?_, ?_, h.increasing.of_cons.of_cons, fun e he => ?_⟩
  · simpa only [text_cons, Glob.bracketFree] using h.bracketFree
  · simpa only [text_cons, nesting_escape] using h.nesting
  · have hstars := h.stars _ (.escape he)
    rwa [starsAsWritten, if_pos rfl] at hstars

theorem of_single (hc : c.1 ≠ '\\') (hopen : c.1 = '{' → split? 0 (text s) = none)
    (h : Expandable n (c :: s)) : c.1 ≠ '[' ∧ Expandable n s := by
  have hbracket := h.bracketFree
  rw [bracketFree_single hc, Bool.and_eq_true, bne_iff_ne] at hbracket
  have hnesting := h.nesting
  rw [text_cons, nesting_plain hc hopen] at hnesting
  refine ⟨hbracket.1, hbracket.2, hnesting, h.increasing.of_cons, fun e he => ?_⟩
  exact starsAsWritten_of_single hc (h.stars _ (.plain hc hopen he))

section

variable (hinside : Balanced inside) (h : Expandable n (('{', i) :: (inside ++ ('}', j) :: rest)))

include hinside h

theorem bracketFree_inside : Glob.bracketFree (text inside) = true ∧ Glob.bracketFree (text rest) = true := by
  have hbracket := h.bracketFree
  rw [bracketFree_single (by simp), bracketFree_append hinside.units, bracketFree_single (by simp),
    Bool.and_eq_true, Bool.and_eq_true, Bool.and_eq_true] at hbracket
  exact ⟨hbracket.2.1, hbracket.2.2.2⟩

theorem nesting_inside : Glob.nesting (text inside) < n ∧ Glob.nesting (text rest) ≤ n := by
  have hnesting := h.nesting
  rw [nesting_group hinside] at hnesting
  exact ⟨Nat.le_trans (Nat.le_max_left _ _) hnesting, Nat.le_trans (Nat.le_max_right _ _) hnesting⟩

/-- What is chosen on both sides of a closing brace is read apart. -/
theorem tokensWith_append (hpart : part ∈ parts inside) (h₁ : Chooses part e₁) (h₂ : Chooses rest e₂) :
    tokensWith none (text (e₁ ++ e₂)) = tokensWith none (text e₁) ++ tokensWith none (text e₂) := by
  have hflat := flat_of_chooses (solid_of_mem_parts hinside hpart).balanced h₁
  have hbracket := bracketFree_of_mem_partsFrom (h.bracketFree_inside hinside).1 hpart
  refine Glob.tokensWith_append hflat (bracketFree_of_chooses h₁ hbracket)
    (h.stars _ (.group hinside hpart h₁ h₂)) fun a ha b hb => ?_
  -- The place of the brace lies between the two.
  have ha' : a ∈ inside := (h₁.sublist.trans (sublist_of_mem_parts hpart)).subset ha
  have hb' : b ∈ rest := h₂.sublist.subset hb
  obtain ⟨-, hbrace, hacross⟩ := List.pairwise_append.1 h.increasing.of_cons
  have hlow : a.2 < j := hacross a ha' ('}', j) (by simp)
  have hhigh : j < b.2 := List.rel_of_pairwise_cons hbrace hb'
  omega

theorem of_part (hpart : part ∈ parts inside) : Expandable (n - 1) part := by
  have hsublist := sublist_of_mem_parts hpart
  refine ⟨bracketFree_of_mem_partsFrom (h.bracketFree_inside hinside).1 hpart, ?_, ?_, fun e he => ?_⟩
  · have hle := nesting_le_of_mem_parts hinside hpart
    have hlt := (h.nesting_inside hinside).1
    omega
  · exact ((List.pairwise_append.1 h.increasing.of_cons).1).sublist hsublist
  · obtain ⟨e', he'⟩ := exists_chooses rest
    exact starsAsWritten_left (h.stars _ (.group hinside hpart he he'))

theorem of_rest : Expandable n rest := by
  refine ⟨(h.bracketFree_inside hinside).2, (h.nesting_inside hinside).2, ?_, fun e he => ?_⟩
  · exact ((List.pairwise_append.1 h.increasing.of_cons).2.1).of_cons
  · obtain ⟨part, hpart⟩ := List.exists_mem_of_ne_nil _ (partsFrom_ne_nil 0 inside)
    obtain ⟨e', he'⟩ := exists_chooses part
    have hflat := flat_of_chooses (solid_of_mem_parts hinside hpart).balanced he'
    exact starsAsWritten_right hflat.balanced.units (h.stars _ (.group hinside hpart he' he))

end

/-- A star with no star after it in the pattern has none after it in what is chosen. -/
theorem star_apart (h : Expandable n (('*', i) :: s)) (hnext : ∀ j t, s ≠ ('*', j) :: t)
    {e : List Placed} (he : Chooses s e) (t : List Char) : text e ≠ '*' :: t := by
  intro ht
  cases e with
  | nil => cases ht
  | cons d e =>
    obtain ⟨d, j⟩ := d
    obtain rfl : d = '*' := (List.cons.inj ht).1
    have hstars := h.stars _ (.plain (by simp) (by simp) he)
    simp [starsAsWritten] at hstars
    -- The next star would be the next character of the pattern.
    cases s with
    | nil => cases he
    | cons c s =>
      have hmem : ('*', j) ∈ c :: s := he.sublist.subset (by simp)
      have hc : c ≠ ('*', j) := fun hc => hnext j s (by rw [hc])
      have hlow : i < c.2 := List.rel_of_pairwise_cons h.increasing (by simp)
      have hhigh : c.2 < j := by
        rcases List.mem_cons.1 hmem with heq | hmem
        · exact absurd heq.symm hc
        · exact List.rel_of_pairwise_cons h.increasing.of_cons hmem
      omega

/-- A pattern matches what its choices match. -/
theorem matches_iff {p : List Placed} (h : Expandable n p) (t : List Char) :
    Matches reading (tokensWithin n (text p)) t ↔ SomeChoice reading p t := by
  induction p using tokenInduction generalizing n t with
  | nil =>
    obtain ⟨branch, hbranch⟩ := exists_tokensWithin_eq n
    rw [someChoice_self fun _ => chooses_nil_iff, hbranch, text_nil, tokensWith_nil, tokensWith_nil]
  | lone i =>
    obtain ⟨branch, hbranch⟩ := exists_tokensWithin_eq n
    rw [someChoice_self fun _ => chooses_lone_iff, hbranch]
    exact Iff.of_eq (congrArg (Matches reading · t) (tokensWith_lone.trans tokensWith_lone.symm))
  | escape i c s ih =>
    have hrest := fun v => ih h.of_escape v
    obtain ⟨branch, hbranch⟩ := exists_tokensWithin_eq n
    rw [hbranch] at hrest ⊢
    rw [someChoice_iff_of_token [('\\', i), c] (.literal c.1) (fun e => chooses_escape_iff)
      fun e _ => tokensWith_escape c.1 (text e)]
    simp only [text_cons, tokensWith_escape, Matches, hrest]
  | stars i j s ih =>
    have hone := (h.of_single (by simp) (by simp)).2
    have hrest := fun v => ih (hone.of_single (by simp) (by simp)).2 v
    have hchooses : ∀ e, Chooses (('*', i) :: ('*', j) :: s) e ↔
        ∃ e', Chooses s e' ∧ e = [('*', i), ('*', j)] ++ e' := by
      intro e
      rw [chooses_plain_iff (by simp) (by simp)]
      constructor
      · rintro ⟨e', he', rfl⟩
        obtain ⟨e'', he'', rfl⟩ := (chooses_plain_iff (by simp) (by simp)).1 he'
        exact ⟨e'', he'', rfl⟩
      · rintro ⟨e'', he'', rfl⟩
        exact ⟨_, .plain (by simp) (by simp) he'', rfl⟩
    obtain ⟨branch, hbranch⟩ := exists_tokensWithin_eq n
    rw [hbranch] at hrest ⊢
    rw [someChoice_iff_of_token _ .globStar hchooses fun e _ => tokensWith_stars (text e)]
    simp only [text_cons, tokensWith_stars, Matches, hrest]
  | star i s hnext ih =>
    have hrest := fun v => ih (h.of_single (by simp) (by simp)).2 v
    obtain ⟨branch, hbranch⟩ := exists_tokensWithin_eq n
    rw [hbranch] at hrest ⊢
    rw [someChoice_iff_of_token [('*', i)] .star (fun e => chooses_plain_iff (by simp) (by simp))
      fun e he => tokensWith_star (h.star_apart hnext he)]
    simp only [text_cons, tokensWith_star (text_ne_star hnext), Matches, hrest]
  | plain c s hc hstar hopen ih =>
    obtain ⟨hbracket, hs⟩ := h.of_single hc hopen
    have hrest := fun v => ih hs v
    obtain ⟨branch, hbranch⟩ := exists_tokensWithin_eq n
    rw [hbranch] at hrest ⊢
    rw [someChoice_iff_of_token [c] (plainToken c.1) (fun e => chooses_plain_iff hc hopen)
      fun e _ => tokensWith_plain hc hstar hbracket (Or.inl rfl)]
    rw [text_cons, tokensWith_plain hc hstar hbracket (Or.inr hopen)]
    simp only [Matches, hrest]
  | group i inside j rest hinside ihparts ih =>
    have hrest := fun v => ih (h.of_rest hinside) v
    -- The branches are read with one level of groups less, and nest one level less.
    have hparts := fun part hpart v => ihparts part hpart (h.of_part hinside hpart) v
    obtain ⟨k, rfl⟩ : ∃ k, n = k + 1 := Nat.exists_eq_succ_of_ne_zero fun hn => by
      have hlt := (h.nesting_inside hinside).1
      omega
    show Matches reading (tokensWith (some (tokensWithin k)) _) t ↔ _
    rw [tokensWith_group hinside]
    constructor
    · rintro ⟨u, v, rfl, hu, hv⟩
      obtain ⟨part, hpart, hu⟩ := groupToken_matches_iff.1 hu
      obtain ⟨e₁, h₁, hu⟩ := (hparts part hpart u).1 hu
      obtain ⟨e₂, h₂, hv⟩ := (hrest v).1 hv
      refine ⟨e₁ ++ e₂, .group hinside hpart h₁ h₂, ?_⟩
      rw [h.tokensWith_append hinside hpart h₁ h₂]
      exact matches_append_iff.2 ⟨u, v, rfl, hu, hv⟩
    · rintro ⟨e, he, hmatch⟩
      obtain ⟨part, hpart, e₁, e₂, h₁, h₂, rfl⟩ := (chooses_group_iff hinside rfl).1 he
      rw [h.tokensWith_append hinside hpart h₁ h₂] at hmatch
      obtain ⟨u, v, rfl, hu, hv⟩ := matches_append_iff.1 hmatch
      refine ⟨u, v, rfl, groupToken_matches_iff.2 ⟨part, hpart, ?_⟩, (hrest v).2 ⟨e₂, h₂, hv⟩⟩
      exact (hparts part hpart u).2 ⟨e₁, h₁, hu⟩

/-- What is left when all groups have been replaced can be expanded, to itself. -/
theorem of_not_hasGroup {e : List Placed} (hbracket : Glob.bracketFree (text e) = true)
    (hincreasing : e.Pairwise fun a b => a.2 < b.2) (hstars : starsAsWritten e = true)
    (h : ∀ before inside after, ¬ HasGroup e before inside after) : Expandable n e := by
  refine ⟨hbracket, ?_, hincreasing, fun e' he' => by rwa [(chooses_iff_eq h).1 he']⟩
  rw [nesting_of_not_hasGroup h]
  exact Nat.zero_le n

end Expandable

/-- A pattern matches what its expansions match. It must have no bracket expression and nest its groups no
deeper than they are read, and no expansion may bring together two stars, none of them behind a backslash,
that do not follow each other in the pattern. -/
theorem matches_tokenize_iff_expansion {p : List Char} (hbracket : bracketFree p = true)
    (hnesting : nesting p ≤ maxDepth)
    (hstars : ∀ e, Expansion Prod.fst p.zipIdx e → starsAsWritten e = true)
    (reading : Reading) (t : List Char) :
    Matches reading (tokenize p) t ↔ ∃ e, Expansion id p e ∧ Matches reading (tokenize e) t := by
  have hp : text p.zipIdx = p := List.zipIdx_map_fst 0 p
  have hincreasing : p.zipIdx.Pairwise fun a b => a.2 < b.2 := by
    rw [← List.pairwise_map (f := Prod.snd), List.zipIdx_map_snd]
    exact List.pairwise_lt_range'
  have hexpandable : Expandable maxDepth p.zipIdx :=
    ⟨by rwa [hp], by rwa [hp], hincreasing, fun e he => hstars e (expansion_iff_chooses.2 he)⟩
  have hmatch : Matches reading (tokenize p) t ↔ SomeChoice reading p.zipIdx t := by
    have hiff : Matches reading (tokensWithin maxDepth (text p.zipIdx)) t ↔ SomeChoice reading p.zipIdx t :=
      hexpandable.matches_iff t
    rwa [hp] at hiff
  -- What is chosen has no group left, so its tokens mean the same at any depth.
  have hchosen : ∀ e, Chooses p.zipIdx e →
      (Matches reading (tokenize (text e)) t ↔ Matches reading (tokensWith none (text e)) t) := by
    intro e he
    have hself : Expandable maxDepth e :=
      .of_not_hasGroup (bracketFree_of_chooses he hexpandable.bracketFree)
        (hincreasing.sublist he.sublist) (hexpandable.stars e he) fun _ _ _ => he.not_hasGroup
    exact (hself.matches_iff t).trans
      (someChoice_self fun e' => chooses_iff_eq fun _ _ _ => he.not_hasGroup)
  have hexpansion : ∀ e, Expansion id p e ↔ ∃ e', Expansion Prod.fst p.zipIdx e' ∧ e = text e' := by
    intro e
    have hiff : Expansion id (text p.zipIdx) e ↔ ∃ e', Expansion Prod.fst p.zipIdx e' ∧ e = text e' :=
      expansion_map_iff
    rwa [hp] at hiff
  rw [hmatch]
  constructor
  · rintro ⟨e, he, ht⟩
    exact ⟨text e, (hexpansion _).2 ⟨e, expansion_iff_chooses.2 he, rfl⟩, (hchosen e he).2 ht⟩
  · rintro ⟨_, he, ht⟩
    obtain ⟨e, hplaced, rfl⟩ := (hexpansion _).1 he
    have hchooses := expansion_iff_chooses.1 hplaced
    exact ⟨e, hchooses, (hchosen e hchooses).1 ht⟩

/-- A group within a group, with an escaped comma and an empty branch, between braces that are not matched. -/
def nestedGroups : List Char :=
  ['}', '{', 'a', ',', '{', 'b', '\\', ',', ',', '}', 'c', '}', '*', '{']

theorem matches_nestedGroups :
    bracketFree nestedGroups = true ∧ nesting nestedGroups ≤ maxDepth ∧
      (∀ e, Expansion Prod.fst nestedGroups.zipIdx e → starsAsWritten e = true) ∧
      ∀ t, Matches CharClass.admits (tokenize nestedGroups) t ↔
        ∃ e, Expansion id nestedGroups e ∧ Matches CharClass.admits (tokenize e) t := by
  have hbracket : bracketFree nestedGroups = true := by decide
  have hnesting : nesting nestedGroups ≤ maxDepth := by decide +kernel
  have hstars : ∀ e, Expansion Prod.fst nestedGroups.zipIdx e → starsAsWritten e = true := by
    intro e he
    refine starsAsWritten_of_count_le_one ?_
    have hcount := ((expansion_iff_chooses.1 he).sublist.map Prod.fst).count_le '*'
    exact Nat.le_trans hcount (by decide)
  exact ⟨hbracket, hnesting, hstars, matches_tokenize_iff_expansion hbracket hnesting hstars _⟩

end LineEndings.Glob

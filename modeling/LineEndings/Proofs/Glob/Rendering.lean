/-
The canonical text of a sequence of tokens.

`render` writes a backslash before every character that stands for itself, inside of brackets too, so a
character without one always stands for something else. Not every sequence is read from a text: a star before
another would be read as two of them, and a bracket expression or a group with nothing in it as something else.
`regular` says that this is so nowhere in a sequence.

* `solid_render` — the braces of the text of a sequence match in it, and its commas stand inside of them, so a
  group is cut into the texts of its branches again (`Brace.cut_joined`);
* `classItems_flatMap_render` — and what stands in brackets is read as the items that it was written for;
* `tokenize_render` — hence the text is read as the tokens.
-/
import LineEndings.Proofs.Glob.Expanding

namespace LineEndings.Glob

open Brace

/-! ### Writing tokens -/

/-- The text of an item of a bracket expression. -/
def ClassItem.render : ClassItem → List Char
  | .single c => ['\\', c]
  | .range low high => ['\\', low, '-', '\\', high]

/-- What stands between the brackets of a bracket expression. -/
def CharClass.render (cls : CharClass) : List Char :=
  (if cls.negated then ['!'] else []) ++ cls.items.flatMap ClassItem.render

mutual

/-- The text of a token. -/
def Token.render : Token → List Char
  | .literal c => ['\\', c]
  | .star => ['*']
  | .globStar => ['*', '*']
  | .question => ['?']
  | .charClass cls => '[' :: (cls.render ++ [']'])
  | .group branches => '{' :: (Text.joined ',' (renderAll branches) ++ ['}'])
  | .never => ['[', ']']

/-- The text of a sequence of tokens. -/
def render : List Token → List Char
  | [] => []
  | token :: tokens => token.render ++ render tokens

/-- The texts of the branches of a group. -/
def renderAll : List (List Token) → List (List Char)
  | [] => []
  | branch :: branches => render branch :: renderAll branches

end

/-! ### Regular sequences -/

/-- Whether an item lists something. -/
def ClassItem.regular : ClassItem → Bool
  | .single _ => true
  | .range low high => low ≤ high

/-- Whether every range lists something, and there is an item or the bracket expression is negated. -/
def CharClass.regular (cls : CharClass) : Bool :=
  cls.items.all ClassItem.regular && (cls.negated || !cls.items.isEmpty)

/-- Whether a token is a star that is directly followed by one star or two. -/
def Token.meetsStar : Token → List Token → Bool
  | .star, .star :: _ => true
  | .star, .globStar :: _ => true
  | _, _ => false

mutual

/-- Whether a token is not `never` and, if it is a bracket expression or a group, there is something in it and all
of that is regular. -/
def Token.regular : Token → Bool
  | .charClass cls => cls.regular
  | .group branches => !branches.isEmpty && regularAll branches
  | .never => false
  | _ => true

/-- Whether all tokens of a sequence are regular, and no star is directly followed by another. -/
def regular : List Token → Bool
  | [] => true
  | token :: tokens => token.regular && !token.meetsStar tokens && regular tokens

/-- Whether all branches of a group are regular. -/
def regularAll : List (List Token) → Bool
  | [] => true
  | branch :: branches => regular branch && regularAll branches

end

mutual

/-- How many levels of groups there are in a token. -/
def Token.levels : Token → Nat
  | .group branches => levelsOfAll branches + 1
  | _ => 0

/-- How many levels of groups there are in a sequence. -/
def levels : List Token → Nat
  | [] => 0
  | token :: tokens => max token.levels (levels tokens)

/-- How many levels of groups there are in the branches of a group. -/
def levelsOfAll : List (List Token) → Nat
  | [] => 0
  | branch :: branches => max (levels branch) (levelsOfAll branches)

end

/-! ### Bracket expressions -/

theorem splitBracket?_item (item : ClassItem) (s : List Char) :
    splitBracket? (item.render ++ s) =
      (splitBracket? s).map fun (inside, rest) => (item.render ++ inside, rest) := by
  cases item with
  | single c =>
    simp only [ClassItem.render, List.cons_append, List.nil_append, splitBracket?]
  | range low high =>
    simp [ClassItem.render, splitBracket?, Function.comp_def]

/-- The bracket that closes a bracket expression is the one that was written for it. -/
theorem splitBracket?_render (cls : CharClass) (s : List Char) :
    splitBracket? (cls.render ++ ']' :: s) = some (cls.render, s) := by
  have hitems : ∀ items : List ClassItem,
      splitBracket? (items.flatMap ClassItem.render ++ ']' :: s) =
        some (items.flatMap ClassItem.render, s) := by
    intro items
    induction items with
    | nil => simp [splitBracket?]
    | cons item items ih =>
      rw [List.flatMap_cons, List.append_assoc, splitBracket?_item, ih]
      rfl
  rw [CharClass.render, List.append_assoc]
  cases cls.negated with
  | false => exact hitems cls.items
  | true =>
    show splitBracket? ('!' :: (cls.items.flatMap ClassItem.render ++ ']' :: s)) = _
    simp [splitBracket?, hitems]

theorem classItems_single {s : List Char} (h : ∀ t, s ≠ '-' :: t) (c : Char) :
    classItems ('\\' :: c :: s) = .single c :: classItems s := by
  rw [classItems]
  have hread : readClassChar '\\' (c :: s) = (c, s) := rfl
  split
  · rename_i d r hdash
    rw [hread] at hdash
    exact absurd hdash (h _)
  · rw [hread]

theorem classItems_range {low high : Char} (h : low ≤ high) (s : List Char) :
    classItems ('\\' :: low :: '-' :: '\\' :: high :: s) = .range low high :: classItems s := by
  rw [classItems]
  have hlow : readClassChar '\\' (low :: '-' :: '\\' :: high :: s) = (low, '-' :: '\\' :: high :: s) := rfl
  have hhigh : readClassChar '\\' (high :: s) = (high, s) := rfl
  split
  · rename_i d r hdash
    rw [hlow] at hdash
    obtain ⟨rfl, rfl⟩ : d = '\\' ∧ r = high :: s := by simpa [eq_comm] using hdash
    rw [hlow, hhigh]
    exact if_pos h
  · rename_i hdash
    exact absurd rfl (hdash '\\' (high :: s))

/-- The text of an item starts with a backslash. -/
theorem flatMap_render_ne {c : Char} (hc : c ≠ '\\') (items : List ClassItem) (t : List Char) :
    items.flatMap ClassItem.render ≠ c :: t := by
  intro h
  cases items with
  | nil => cases h
  | cons item items =>
    rw [List.flatMap_cons] at h
    cases item <;> exact hc (List.cons.inj h).1.symm

/-- Items are read from the text that is written for them. -/
theorem classItems_flatMap_render {items : List ClassItem} (h : items.all ClassItem.regular = true) :
    classItems (items.flatMap ClassItem.render) = items := by
  induction items with
  | nil => simp [classItems]
  | cons item items ih =>
    rw [List.all_cons, Bool.and_eq_true] at h
    rw [List.flatMap_cons]
    cases item with
    | single c =>
      show classItems ('\\' :: c :: items.flatMap ClassItem.render) = _
      rw [classItems_single (flatMap_render_ne (by decide) items), ih h.2]
    | range low high =>
      show classItems ('\\' :: low :: '-' :: '\\' :: high :: items.flatMap ClassItem.render) = _
      rw [classItems_range (of_decide_eq_true h.1), ih h.2]

theorem classToken_render {cls : CharClass} (h : cls.regular = true) :
    classToken cls.render = .charClass cls := by
  obtain ⟨negated, items⟩ := cls
  rw [CharClass.regular, Bool.and_eq_true] at h
  obtain ⟨hitems, hlists⟩ := h
  have hread := classItems_flatMap_render hitems
  cases negated with
  | true => simp [classToken, CharClass.render, hread]
  | false =>
    have hne : items.isEmpty = false := by simpa using hlists
    unfold classToken
    simp only [CharClass.render, Bool.false_eq_true, if_false, List.nil_append]
    split
    · rename_i hmark
      exact absurd hmark (flatMap_render_ne (by decide) items _)
    · rename_i hmark
      exact absurd hmark (flatMap_render_ne (by decide) items _)
    · simp [hread, hne]

/-! ### Texts of tokens -/

theorem solid_render_item (item : ClassItem) : Solid (placed item.render) := by
  cases item with
  | single c => exact solid_escape 0 (c, 0)
  | range low high =>
    have hdash : Solid [('-', 0)] := solid_plain (by simp) (by simp)
    exact (solid_escape 0 (low, 0)).append (hdash.append (solid_escape 0 (high, 0)))

theorem solid_render_class (cls : CharClass) : Solid (placed cls.render) := by
  have hitems : ∀ items : List ClassItem, Solid (placed (items.flatMap ClassItem.render)) := by
    intro items
    induction items with
    | nil => exact solid_nil
    | cons item items ih =>
      rw [List.flatMap_cons, placed_append]
      exact (solid_render_item item).append ih
  rw [CharClass.render, placed_append]
  refine Solid.append ?_ (hitems cls.items)
  cases cls.negated with
  | true => exact solid_plain (by simp) (by simp)
  | false => exact solid_nil

mutual

theorem Token.solid_render : ∀ token : Token, Solid (placed token.render)
  | .literal c => solid_escape 0 (c, 0)
  | .star | .question => solid_plain (by simp) (by simp)
  | .globStar => (solid_plain (by simp) (by simp)).append (solid_plain (by simp) (by simp))
  | .never => (solid_plain (by simp) (by simp)).append (solid_plain (by simp) (by simp))
  | .charClass cls => by
    rw [Token.render, placed_cons, placed_append]
    have hopen : Solid [('[', 0)] := solid_plain (by simp) (by simp)
    have hclose : Solid [(']', 0)] := solid_plain (by simp) (by simp)
    exact hopen.append ((solid_render_class cls).append hclose)
  | .group branches => by
    rw [Token.render, placed_cons, placed_append]
    exact solid_group (balanced_joined (solid_of_mem_renderAll branches))

/-- The braces of the text of a sequence match in it, and its commas stand inside of them. -/
theorem solid_render : ∀ tokens : List Token, Solid (placed (render tokens))
  | [] => solid_nil
  | token :: tokens => by
    rw [render, placed_append]
    exact token.solid_render.append (solid_render tokens)

theorem solid_of_mem_renderAll : ∀ branches : List (List Token),
    ∀ s ∈ renderAll branches, Solid (placed s)
  | [], _, h => by cases h
  | branch :: branches, s, h => by
    rcases List.mem_cons.1 h with rfl | h
    · exact solid_render branch
    · exact solid_of_mem_renderAll branches s h

end

/-- A text that starts with a star is that of a sequence that starts with one star or two. -/
theorem meetsStar_of_render_eq {tokens : List Token} {t : List Char} (h : render tokens = '*' :: t) :
    Token.star.meetsStar tokens = true := by
  cases tokens with
  | nil => cases h
  | cons token tokens =>
    have hhead : ∀ c s, token.render = c :: s → c = '*' := by
      intro c s hs
      rw [render, hs] at h
      exact (List.cons.inj h).1
    cases token with
    | star => rfl
    | globStar => rfl
    | _ => exact absurd (hhead _ _ rfl) (by decide)

/-! ### Reading what was written -/

variable {branch : Option (List Char → List Token)}

theorem tokensWith_class {cls : CharClass} (h : cls.regular = true) (s : List Char) :
    tokensWith branch ((Token.charClass cls).render ++ s) = .charClass cls :: tokensWith branch s := by
  have hread : readToken branch '[' (cls.render ++ ']' :: s) = (.charClass cls, s) := by
    unfold readToken
    simp only [splitBracket?_render, classToken_render h]
  have htext : (Token.charClass cls).render ++ s = '[' :: (cls.render ++ ']' :: s) := by
    simp [Token.render]
  rw [htext, tokensWith, hread]

theorem dead_of_regular {tokens : List Token} (h : regular tokens = true) : dead tokens = false := by
  induction tokens with
  | nil => rfl
  | cons token tokens ih =>
    rw [regular, Bool.and_eq_true, Bool.and_eq_true] at h
    rw [dead, List.any_cons, Bool.or_eq_false_iff]
    refine ⟨?_, ih h.2⟩
    cases token with
    | never => exact absurd h.1.1 Bool.false_ne_true
    | _ => rfl

theorem renderAll_eq_map (branches : List (List Token)) : renderAll branches = branches.map render := by
  induction branches with
  | nil => rfl
  | cons branch branches ih => rw [renderAll, ih, List.map_cons]

/-- A group is read as its branches, if each of them is. -/
theorem groupToken_render {read : List Char → List Token} {branches : List (List Token)}
    (hne : branches ≠ []) (hregular : ∀ branch ∈ branches, regular branch = true)
    (hread : ∀ branch ∈ branches, read (render branch) = branch) :
    groupToken read (Text.joined ',' (renderAll branches)) = .group branches := by
  have hcut : (cut (Text.joined ',' (renderAll branches))).map read = branches := by
    have huncut : ∀ s ∈ renderAll branches, Uncut s :=
      fun s hs => (solid_of_mem_renderAll branches s hs).uncut
    rw [cut_joined (by simpa [renderAll_eq_map] using hne) huncut, renderAll_eq_map, List.map_map]
    exact (List.map_congr_left hread).trans (List.map_id branches)
  have hlive : branches.filter (!dead ·) = branches := by
    rw [List.filter_eq_self]
    intro branch hbranch
    rw [dead_of_regular (hregular branch hbranch)]
    rfl
  rw [groupToken, hcut, hlive, if_neg (by simpa using hne)]

theorem regular_of_mem {branches : List (List Token)} (h : regularAll branches = true) :
    ∀ branch ∈ branches, regular branch = true := by
  induction branches with
  | nil => simp
  | cons branch branches ih =>
    rw [regularAll, Bool.and_eq_true] at h
    exact List.forall_mem_cons.2 ⟨h.1, ih h.2⟩

/-- A token is read from its text, and what follows is read apart, if the branches are read from theirs. -/
theorem tokensWithin_render_append {n : Nat} {token : Token} {s : List Char} (hregular : token.regular = true)
    (hstar : token = .star → ∀ t, s ≠ '*' :: t)
    (hgroup : ∀ branches, token = .group branches →
      ∃ k, n = k + 1 ∧ ∀ branch ∈ branches, tokensWithin k (render branch) = branch) :
    tokensWithin n (token.render ++ s) = token :: tokensWithin n s := by
  obtain ⟨branch, hbranch⟩ := exists_tokensWithin_eq n
  cases token with
  | literal c =>
    rw [hbranch]
    exact tokensWith_escape c s
  | star =>
    rw [hbranch]
    exact tokensWith_star (hstar rfl)
  | globStar =>
    rw [hbranch]
    exact tokensWith_stars s
  | question =>
    rw [hbranch]
    exact tokensWith_plain (by decide) (by decide) (by decide) (Or.inr fun h => absurd h (by decide))
  | charClass cls =>
    rw [hbranch]
    exact tokensWith_class hregular s
  | group branches =>
    obtain ⟨k, rfl, hread⟩ := hgroup branches rfl
    rw [Token.regular, Bool.and_eq_true] at hregular
    have hne : branches ≠ [] := by simpa using hregular.1
    have htokens : tokensWith (some (tokensWithin k))
        (text (('{', 0) :: (placed (Text.joined ',' (renderAll branches)) ++ ('}', 0) :: placed s))) =
          groupToken (tokensWithin k) (text (placed (Text.joined ',' (renderAll branches)))) ::
            tokensWith (some (tokensWithin k)) (text (placed s)) :=
      tokensWith_group (balanced_joined (solid_of_mem_renderAll branches))
    rw [text_placed, text_placed, groupToken_render hne (regular_of_mem hregular.2) hread] at htokens
    show tokensWith (some (tokensWithin k)) _ = .group branches :: tokensWith (some (tokensWithin k)) s
    rw [← htokens, Token.render]
    simp
  | never => cases hregular

mutual

theorem Token.tokensWithin_render_branches : ∀ (token : Token) {n : Nat}, token.regular = true →
    token.levels ≤ n → ∀ branches, token = .group branches →
      ∃ k, n = k + 1 ∧ ∀ branch ∈ branches, tokensWithin k (render branch) = branch
  | .group branches, n, hregular, hlevels, _, rfl => by
    rw [Token.regular, Bool.and_eq_true] at hregular
    rw [Token.levels] at hlevels
    obtain ⟨k, rfl⟩ : ∃ k, n = k + 1 := Nat.exists_eq_succ_of_ne_zero (by omega)
    exact ⟨k, rfl, tokensWithin_render_of_mem branches hregular.2 (Nat.le_of_succ_le_succ hlevels)⟩

/-- The text of a sequence is read as the sequence. -/
theorem tokensWithin_render : ∀ (tokens : List Token) {n : Nat},
    regular tokens = true → levels tokens ≤ n → tokensWithin n (render tokens) = tokens
  | [], n, _, _ => by
    obtain ⟨branch, hbranch⟩ := exists_tokensWithin_eq n
    rw [hbranch]
    exact tokensWith_nil
  | token :: tokens, n, hregular, hlevels => by
    rw [regular, Bool.and_eq_true, Bool.and_eq_true, Bool.not_eq_true'] at hregular
    obtain ⟨⟨htoken, happart⟩, htokens⟩ := hregular
    rw [levels, Nat.max_le] at hlevels
    have hstar : token = .star → ∀ t, render tokens ≠ '*' :: t := by
      rintro rfl t ht
      rw [meetsStar_of_render_eq ht] at happart
      cases happart
    rw [render, tokensWithin_render_append htoken hstar
      (token.tokensWithin_render_branches htoken hlevels.1), tokensWithin_render tokens htokens hlevels.2]

theorem tokensWithin_render_of_mem : ∀ (branches : List (List Token)) {n : Nat},
    regularAll branches = true → levelsOfAll branches ≤ n →
      ∀ branch ∈ branches, tokensWithin n (render branch) = branch
  | [], _, _, _ => List.forall_mem_nil _
  | branch :: branches, n, hregular, hlevels => by
    rw [regularAll, Bool.and_eq_true] at hregular
    rw [levelsOfAll, Nat.max_le] at hlevels
    have hbranch := tokensWithin_render branch hregular.1 hlevels.1
    exact List.forall_mem_cons.2 ⟨hbranch, tokensWithin_render_of_mem branches hregular.2 hlevels.2⟩

end

/-- Every regular sequence that nests its groups no deeper than they are read is read from its text. -/
theorem tokenize_render {tokens : List Token} (hregular : regular tokens = true)
    (hlevels : levels tokens ≤ maxDepth) : tokenize (render tokens) = tokens :=
  tokensWithin_render tokens hregular hlevels

/-- A star before a group of three branches, one of them empty, one with a group in it, with the characters
that mean something elsewhere written as themselves. -/
def crowded : List Token :=
  [.star, .group [[.literal ',', .literal '}', .globStar, .star], [],
    [.group [[.charClass ⟨true, [.range '!' ']', .single '-', .single '^']⟩], [.literal '\\']], .question]],
    .charClass ⟨true, []⟩, .literal '/']

theorem tokenize_render_crowded :
    regular crowded = true ∧ levels crowded ≤ maxDepth ∧ tokenize (render crowded) = crowded := by
  have hregular : regular crowded = true := by decide
  have hlevels : levels crowded ≤ maxDepth := by decide
  exact ⟨hregular, hlevels, tokenize_render hregular hlevels⟩

end LineEndings.Glob

/-
The parts of a pattern that are read by places.

Before such a part there are whole units, and every group that it opens is closed in it, unless the pattern ends there
(`Spans`). Behind each token there is such a part again, and so are the branches of a group, so no step of the reader
is wrong:

* `rangesInPlace_eq` — the branches of a group are found where the parts of its inside stand;
* `Spans.tokenAt_eq` — a token is the one that is read from the text, and the reader goes on behind it;
* `reads_rangeWithin` — so the tokens of a range are those of its text, however deep groups may nest;
* `branches_and_tokens_in_place` — and reading a pattern by places never fails, and gives its tokens.
-/
import LineEndings.Proofs.Glob.Ranges
import LineEndings.Proofs.Glob.Stepping
import LineEndings.Proofs.Scan

namespace LineEndings.Glob

open Brace

/-! ### Parts of a pattern that are read in place -/

/-- Whether a range of a pattern is a text that is read in place: whole units stand before it, and what it opens is
closed in it, unless the pattern ends there. Before an empty text there may be a backslash that takes nothing with
it. -/
structure Spans (p : List Placed) (start stop : Nat) (t : List Placed) : Prop where
  stop_eq : stop = start + t.length
  exists_eq : ∃ front back, p = front ++ (t ++ back) ∧ start = front.length ∧ (t ≠ [] → Units front) ∧
    (back = [] ∨ ∃ k, Walk k t 0)

variable {p t x y front back inside rest : List Placed} {c : Placed} {start stop i j place : Nat}

theorem spans_whole (p : List Placed) : Spans p 0 p.length p :=
  ⟨(Nat.zero_add _).symm, [], [], by simp, rfl, fun _ => .nil, Or.inl rfl⟩

/-- A balanced text is read in place wherever it stands. -/
theorem spans_of_balanced (h : Balanced t) (hfront : Units front) (back : List Placed) :
    Spans (front ++ (t ++ back)) front.length (front.length + t.length) t :=
  ⟨rfl, front, back, rfl, rfl, fun _ => hfront, Or.inr ⟨0, h⟩⟩

theorem Spans.inRange (h : Spans p start stop t) : start ≤ stop ∧ stop ≤ (text p).length := by
  obtain ⟨rfl, front, back, rfl, rfl, -, -⟩ := h
  simp only [text_append, List.length_append, length_text]
  omega

/-- What is left behind whole units is read in place. -/
theorem Spans.behind (h : Spans p start stop (x ++ t)) (hx : t ≠ [] → Units x) :
    Spans p (start + x.length) stop t := by
  obtain ⟨rfl, front, back, rfl, rfl, hfront, hclosed⟩ := h
  refine ⟨by rw [List.length_append, Nat.add_assoc], front ++ x, back, by simp, by simp, fun hne => ?_, ?_⟩
  · exact (hfront (by simp [hne])).append (hx hne)
  · refine hclosed.imp_right fun ⟨k, hwalk⟩ => ?_
    by_cases hne : t = []
    · exact ⟨0, hne ▸ .nil⟩
    · obtain ⟨m, -, hrest⟩ := hwalk.split (hx hne)
      exact ⟨m, hrest⟩

theorem lookAt_text (hp : p = front ++ c :: back) : lookAt (text p) front.length = .ok c.1 := by
  rw [hp, text_append]
  exact lookAt_eq rfl (length_text front).symm

theorem Spans.lookAt_eq (h : Spans p start stop (c :: t)) : lookAt (text p) start = .ok c.1 := by
  obtain ⟨-, front, back, hp, rfl, -, -⟩ := h
  exact lookAt_text hp

theorem Spans.exists_text_eq (h : Spans p start stop (c :: t)) :
    ∃ front back, text p = front ++ (text t ++ back) ∧ start + 1 = front.length ∧
      stop = start + 1 + (text t).length := by
  obtain ⟨rfl, front, back, rfl, rfl, -, -⟩ := h
  refine ⟨text (front ++ [c]), text back, by simp, by simp, ?_⟩
  rw [List.length_cons, length_text]
  omega

theorem Spans.peekAt_eq (h : Spans p start stop (c :: t)) : peekAt (text p) (start + 1) stop = .ok (text t).head? := by
  obtain ⟨front, back, hp, hstart, hstop⟩ := h.exists_text_eq
  exact Glob.peekAt_eq hp hstart hstop

theorem Spans.closingBracketAt_eq (h : Spans p start stop (c :: t)) :
    closingBracketAt (text p) stop (start + 1) =
      .ok ((splitBracket? (text t)).map fun found => start + 1 + found.1.length) := by
  obtain ⟨front, back, hp, hstart, hstop⟩ := h.exists_text_eq
  exact Glob.closingBracketAt_eq hp hstart hstop

theorem Spans.classAt_eq (h : Spans p start stop (c :: (x ++ t))) :
    classAt (text p) (start + 1) (start + 1 + x.length) = .ok (classToken (text x)) := by
  obtain ⟨front, back, hp, hstart, -⟩ := h.exists_text_eq
  rw [text_append, List.append_assoc] at hp
  exact Glob.classAt_eq hp hstart (by rw [length_text])

/-! ### Which brace closes which -/

theorem lookAt_closers {s : List Char} (h : place < s.length) : lookAt (closers s) place = .ok (closer? s place) := by
  rw [← length_closers] at h
  rw [lookAt, ← join_getElem?_closers, List.getElem?_eq_getElem h]
  rfl

theorem group_append (i j : Nat) (inside rest back : List Placed) :
    ('{', i) :: (inside ++ ('}', j) :: rest) ++ back = ('{', i) :: (inside ++ ('}', j) :: (rest ++ back)) := by
  simp

theorem lookAt_closers_group (hp : p = front ++ ('{', i) :: (inside ++ ('}', j) :: back)) (hfront : Units front)
    (hinside : Balanced inside) :
    lookAt (closers (text p)) front.length = .ok (some (front.length + 1 + inside.length)) := by
  have hpair := (mem_pairs_iff ⟨hfront, hp⟩).2 ⟨inside, j, back, rfl, hinside, rfl⟩
  rw [lookAt_closers (by simp [hp]), closer?_eq_some_iff.2 hpair]

/-- A brace in a part that is read in place is closed in it, or not at all. -/
theorem Spans.lookAt_closers_eq (h : Spans p start stop (('{', i) :: t)) :
    lookAt (closers (text p)) start = .ok ((split? 0 (text t)).map fun found => start + 1 + found.1.length) := by
  obtain ⟨-, front, back, rfl, rfl, hfront, hclosed⟩ := h
  have hunits : Units front := hfront (List.cons_ne_nil _ _)
  cases hsplit : split? 0 (text t) with
  | some found =>
    obtain ⟨inside, j, rest, rfl, hinside⟩ := exists_walk_of_split? hsplit
    rw [split?_group hinside] at hsplit
    obtain rfl := Option.some.inj hsplit
    rw [group_append, lookAt_closers_group rfl hunits hinside, Option.map_some, length_text]
  | none =>
    rw [lookAt_closers (by simp), Option.map_none]
    refine congrArg Except.ok (Option.eq_none_iff_forall_ne_some.2 fun closing hclosing => ?_)
    have hstarts : Starts (front ++ (('{', i) :: t ++ back)) front ('{', i) (t ++ back) := ⟨hunits, rfl⟩
    obtain ⟨inside, j, rest, heq, hinside, -⟩ := (mem_pairs_iff hstarts).1 (closer?_eq_some_iff.1 hclosing)
    rcases hclosed with rfl | ⟨k, hwalk⟩
    · rw [List.append_nil] at heq
      rw [heq, split?_group hinside] at hsplit
      cases hsplit
    · cases hwalk with
      | opening hwalk =>
        obtain ⟨u, l, z, rfl, hu⟩ := hwalk.exists_closing (Nat.succ_pos k)
        rw [split?_group hu] at hsplit
        cases hsplit
      | plain hc _ => exact hc.2.1 rfl

/-! ### Branch ranges -/

theorem placeBehind_of_ne {s : List Char} {c : Char} (hescape : c ≠ '\\') (hopening : c ≠ '{') (place : Nat) :
    placeBehind s c place = .ok (place + 1) := by
  unfold placeBehind
  split
  · exact absurd rfl hescape
  · exact absurd rfl hopening
  · rfl

theorem scanRanges_step {s : List Char} {c : Char} {next : Nat} (hlook : lookAt s place = .ok c)
    (hbehind : placeBehind s c place = .ok next) (hnext : place < next ∧ next ≤ stop) :
    scanRanges s stop start place =
      if c = ',' then (scanRanges s stop next next).map ((start, place) :: ·) else scanRanges s stop start next := by
  rw [scanRanges, if_pos (Nat.lt_of_lt_of_le hnext.1 hnext.2), hlook]
  show placeBehind s c place >>= _ = _
  rw [hbehind]
  show stepTo place next stop >>= _ = _
  rw [stepTo_eq hnext]
  show (if c = ',' then scanRanges s stop next next >>= _ else _) = _
  split
  · exact bind_ok_eq_map _ _
  · rfl

/-- Whether the ranges of the parts of a text are found wherever it stands. The branch that it begins in may have
started before it, with `y`. -/
def Scanned (x : List Placed) : Prop :=
  ∀ p front y back start stop, p = front ++ (x ++ back) → Units front → start + y.length = front.length →
    stop = front.length + x.length →
      scanRanges (text p) stop start front.length = .ok (rangesFrom start ((prependFirst y (parts x)).map text))

theorem scanned_nil : Scanned [] := by
  intro p front y back start stop _ _ hy hstop
  rw [scanRanges, if_neg (by simp [hstop])]
  show Except.ok [(start, stop)] = .ok [(start, start + (text (y ++ [])).length)]
  rw [List.append_nil, length_text, hy, hstop]
  rfl

/-- The search goes on behind what it steps over at once. -/
theorem Scanned.append_solid (ht : Scanned t) (hx : Solid (c :: x)) (hcomma : c.1 ≠ ',')
    (hbehind : ∀ front back, Units front → placeBehind (text (front ++ (c :: x ++ back))) c.1 front.length =
      .ok (front.length + (c :: x).length)) : Scanned (c :: x ++ t) := by
  intro p front y back start stop hp hfront hy hstop
  rw [List.append_assoc] at hp
  rw [List.length_append] at hstop
  have hnext := hbehind front (t ++ back) hfront
  rw [← hp] at hnext
  have hrest := ht p (front ++ c :: x) (y ++ c :: x) back start stop (by simp [hp])
    (hfront.append hx.balanced.units) (by simp only [List.length_append]; omega)
    (by rw [hstop, List.length_append, Nat.add_assoc])
  rw [List.length_append] at hrest
  rw [scanRanges_step (lookAt_text hp) hnext ⟨by simp, by omega⟩, if_neg hcomma, hrest, parts, parts,
    hx.partsFrom_append, prependFirst_prependFirst]

/-- At a comma a branch ends, and the next one starts behind it. -/
theorem Scanned.comma (ht : Scanned t) : Scanned ((',', i) :: t) := by
  intro p front y back start stop hp hfront hy hstop
  rw [List.length_cons] at hstop
  have hnext : placeBehind (text p) ',' front.length = .ok (front.length + 1) :=
    placeBehind_of_ne (by simp) (by simp) _
  have hrest := ht p (front ++ [(',', i)]) [] back (front.length + 1) stop (by simp [hp])
    (hfront.append (.single (by simp) .nil)) (by simp) (by simp [hstop]; omega)
  rw [List.length_append, List.length_singleton, parts, prependFirst_nil] at hrest
  rw [scanRanges_step (lookAt_text hp) hnext ⟨by simp, by omega⟩, if_pos rfl, hrest, parts, partsFrom_comma]
  show Except.ok ((start, front.length) :: rangesFrom (front.length + 1) _) =
    .ok ((start, start + (text (y ++ [])).length) :: rangesFrom (start + (text (y ++ [])).length + 1) _)
  rw [List.append_nil, length_text, hy]

theorem scanned_of_balanced (h : Balanced x) : Scanned x := by
  refine balancedInduction (motive := Scanned) ?nil ?escape ?plain ?group h
  case nil => exact scanned_nil
  case escape =>
    intro i c s ih
    exact ih.append_solid (solid_escape i c) (by simp) fun _ _ _ => rfl
  case plain =>
    intro c s hc ih
    by_cases hcomma : c.1 = ','
    · obtain ⟨c, i⟩ := c
      subst hcomma
      exact ih.comma
    · exact ih.append_solid (solid_plain hc hcomma) hcomma fun _ _ _ => placeBehind_of_ne hc.1 hc.2.1 _
  case group =>
    intro i inside j rest hinside _ ih
    have hgroup : Scanned (('{', i) :: (inside ++ [('}', j)]) ++ rest) := by
      refine ih.append_solid (solid_group hinside) (by simp) fun front back hfront => ?_
      rw [group_append, placeBehind, lookAt_closers_group rfl hfront hinside]
      show Except.ok (front.length + 1 + inside.length + 1) = .ok (front.length + (inside ++ [('}', j)]).length.succ)
      rw [List.length_append, List.length_singleton]
      congr 1
      omega
    rwa [List.cons_append, List.append_assoc] at hgroup

/-- The branch ranges of a group are found in place. -/
theorem rangesInPlace_eq (hp : p = front ++ ('{', i) :: (inside ++ ('}', j) :: back)) (hfront : Units front)
    (hinside : Balanced inside) :
    rangesInPlace (text p) front.length (front.length + 1 + inside.length) =
      .ok (rangesFrom (front.length + 1) ((parts inside).map text)) := by
  have hscan := scanned_of_balanced hinside p (front ++ [('{', i)]) [] (('}', j) :: back) (front.length + 1)
    (front.length + 1 + inside.length) (by simp [hp]) (hfront.append (.single (by simp) .nil)) (by simp) (by simp)
  rwa [List.length_append, List.length_singleton, parts, prependFirst_nil] at hscan

theorem rangesInPlace_eq_branchRanges {s : List Char} (h : (i, j) ∈ pairs s) :
    rangesInPlace s i j = .ok (branchRanges s i j) := by
  obtain ⟨before, inside, after, hgroup⟩ := closer?_eq_some_iff_groupAt.1 (closer?_eq_some_iff.2 h)
  have hranges := rangesInPlace_eq hgroup.eq hgroup.units hgroup.balanced
  rwa [text_zipIdx, ← hgroup.closing_eq, ← hgroup.opening_eq, ← hgroup.branchRanges_eq] at hranges

/-- The parts of a balanced text are read in place where their ranges are. -/
theorem forall₂_spans {front inside : List Placed} (h : Balanced inside) (hfront : Units front) (back : List Placed) :
    List.Forall₂ (fun range part => Spans (front ++ (inside ++ back)) range.1 range.2 part)
      (rangesFrom front.length ((parts inside).map text)) (parts inside) := by
  obtain ⟨first, others, hparts, hcases⟩ := exists_partsFrom_eq_cons 0 inside
  have hfirst : Balanced first := (solid_of_mem_parts h (by rw [parts, hparts]; exact List.mem_cons_self)).balanced
  rw [parts, hparts, List.map_cons, rangesFrom, length_text]
  rcases hcases with ⟨rfl, rfl⟩ | ⟨i, rest, rfl, rfl⟩
  · exact .cons (spans_of_balanced hfirst hfront back) .nil
  · have hrest : Balanced rest := (hfirst.of_append h).of_plain (by simp)
    have hunits : Units (front ++ (first ++ [(',', i)])) :=
      hfront.append (hfirst.units.append (.single (by simp) .nil))
    have hspans := forall₂_spans hrest hunits back
    have hlength : (front ++ (first ++ [(',', i)])).length = front.length + first.length + 1 := by simp; omega
    rw [hlength] at hspans
    refine .cons ?_ ?_
    · rw [List.append_assoc first]
      exact spans_of_balanced hfirst hfront _
    · simpa using hspans
termination_by inside.length
decreasing_by simp_all; omega

/-! ### Tokens -/

/-- What is split off at a bracket has whole units in it. -/
theorem units_of_splitBracket? {p : List Placed} {found : List Char × List Char}
    (h : splitBracket? (text p) = some found) :
    ∃ x j z, p = x ++ (']', j) :: z ∧ found = (text x, text z) ∧ Units x := by
  induction p using unitInduction generalizing found with
  | nil => cases h
  | lone i => cases h
  | escape i c s ih =>
    rw [text_cons, text_cons, splitBracket?] at h
    obtain ⟨inner, hinner, rfl⟩ := Option.map_eq_some_iff.1 h
    obtain ⟨x, j, z, rfl, rfl, hx⟩ := ih hinner
    exact ⟨('\\', i) :: c :: x, j, z, rfl, rfl, .escape hx⟩
  | single c s hc ih =>
    obtain ⟨c, i⟩ := c
    by_cases hbracket : c = ']'
    · subst hbracket
      have hfound : splitBracket? (text ((']', i) :: s)) = some ([], text s) := by simp [splitBracket?]
      rw [hfound] at h
      exact ⟨[], i, s, rfl, (Option.some.inj h).symm, .nil⟩
    · rw [text_cons, splitBracket?, if_neg hbracket] at h
      · obtain ⟨inner, hinner, rfl⟩ := Option.map_eq_some_iff.1 h
        obtain ⟨x, j, z, rfl, rfl, hx⟩ := ih hinner
        exact ⟨(c, i) :: x, j, z, rfl, rfl, .single hc hx⟩
      · exact fun h => absurd h hc
      · exact fun _ _ h => absurd h hc

/-- Whether reading a range gives the tokens of the text there. -/
def Reads (p : List Placed) (read : Nat → Nat → Except Fault (List Token))
    (tokens : List Char → List Token) : Prop :=
  ∀ start stop t, Spans p start stop t → read start stop = .ok (tokens (text t))

variable {read : Nat → Nat → Except Fault (List Token)} {tokens : List Char → List Token}
  {read? : Option (Nat → Nat → Except Fault (List Token))} {tokens? : Option (List Char → List Token)}

/-- The token for a group is the one for the text in its braces. -/
theorem Spans.groupAt_eq (h : Spans p start stop (('{', i) :: (inside ++ ('}', j) :: rest))) (hinside : Balanced inside)
    (hread : Reads p read tokens) :
    groupAt (text p) read start (start + 1 + inside.length) = .ok (groupToken tokens (text inside)) := by
  obtain ⟨-, front, back, hp, rfl, hunits, -⟩ := h
  have hfront : Units front := hunits (List.cons_ne_nil _ _)
  rw [group_append] at hp
  have hranges := rangesInPlace_eq hp hfront hinside
  have hopening : Units (front ++ [('{', i)]) := hfront.append (.single (by simp) .nil)
  have hspans := forall₂_spans hinside hopening (('}', j) :: (rest ++ back))
  rw [List.append_assoc, List.singleton_append, ← hp, List.length_append, List.length_singleton] at hspans
  have hbranches : List.mapM (fun range : Nat × Nat => read range.1 range.2)
      (rangesFrom (front.length + 1) ((parts inside).map text)) =
        .ok ((parts inside).map fun part => tokens (text part)) :=
    mapM_eq_ok_iff.2 (List.forall₂_map_right_iff.2 (hspans.imp fun (range : Nat × Nat) part =>
      hread range.1 range.2 part))
  rw [groupAt, hranges]
  show Except.bind (List.mapM _ _) _ = _
  rw [hbranches, groupToken, ← map_text_parts, List.map_map]
  rfl

/-- Whether the token that a text starts with is read in place: it is the one that is read from the text, and what
comes behind it is where the reader goes on. -/
def TokenRead (read : Except Fault (Token × Nat)) (tokens? : Option (List Char → List Token)) (start : Nat)
    (c : Placed) (t : List Placed) : Prop :=
  ∃ token x rest, c :: t = x ++ rest ∧ x ≠ [] ∧ (rest ≠ [] → Units x) ∧
    readToken tokens? c.1 (text t) = (token, text rest) ∧ read = .ok (token, start + x.length)

theorem tokenRead_single {read : Except Fault (Token × Nat)} {token : Token} (hc : c.1 ≠ '\\')
    (htoken : readToken tokens? c.1 (text t) = (token, text t)) (hread : read = .ok (token, start + 1)) :
    TokenRead read tokens? start c t :=
  ⟨token, [c], t, rfl, List.cons_ne_nil _ _, fun _ => .single hc .nil, htoken, hread⟩

theorem tokenRead_escape (s : List Char) (start stop i : Nat) (t : List Placed) :
    TokenRead (tokenOf s read? start stop '\\' (text t).head?) tokens? start ('\\', i) t := by
  cases t with
  | nil => exact ⟨_, [_], [], rfl, List.cons_ne_nil _ _, fun hne => absurd rfl hne, rfl, rfl⟩
  | cons d t => exact ⟨_, [_, d], t, rfl, List.cons_ne_nil _ _, fun _ => .escape .nil, rfl, rfl⟩

theorem tokenRead_star (s : List Char) (start stop i : Nat) (t : List Placed) :
    TokenRead (tokenOf s read? start stop '*' (text t).head?) tokens? start ('*', i) t := by
  by_cases hstar : ∃ k u, t = ('*', k) :: u
  · obtain ⟨k, u, rfl⟩ := hstar
    exact ⟨_, [_, _], u, rfl, List.cons_ne_nil _ _, fun _ => .single (by simp) (.single (by simp) .nil), rfl, rfl⟩
  · have hhead : ∀ u, text t ≠ '*' :: u := text_ne_star fun k u heq => hstar ⟨k, u, heq⟩
    refine tokenRead_single (by simp) (readToken_star hhead) ?_
    show Except.ok (if (text t).head? = some '*' then _ else _) = _
    rw [if_neg]
    intro heq
    obtain ⟨u, hu⟩ := List.head?_eq_some_iff.1 heq
    exact hhead u hu

theorem Spans.tokenRead_bracket (h : Spans p start stop (('[', i) :: t)) :
    TokenRead (tokenOf (text p) read? start stop '[' (text t).head?) tokens? start ('[', i) t := by
  have hsearch := h.closingBracketAt_eq
  cases hsplit : splitBracket? (text t) with
  | none =>
    rw [hsplit] at hsearch
    have hread : readToken tokens? '[' (text t) = (.literal '[', text t) := by simp only [readToken, hsplit]
    refine tokenRead_single (by simp) hread ?_
    show closingBracketAt (text p) stop (start + 1) >>= _ = _
    rw [hsearch]
    rfl
  | some found =>
    obtain ⟨x, j, rest, rfl, rfl, hx⟩ := units_of_splitBracket? hsplit
    have hlength : start + (('[', i) :: (x ++ [(']', j)])).length = start + 1 + x.length + 1 := by simp; omega
    rw [hsplit, Option.map_some, length_text] at hsearch
    refine ⟨classToken (text x), ('[', i) :: (x ++ [(']', j)]), rest, by simp, List.cons_ne_nil _ _,
      fun _ => .single (by simp) (hx.append (.single (by simp) .nil)), by simp only [readToken, hsplit], ?_⟩
    show closingBracketAt (text p) stop (start + 1) >>= _ = _
    rw [hsearch, hlength]
    show classAt (text p) (start + 1) (start + 1 + x.length) >>= _ = _
    rw [h.classAt_eq]
    rfl

theorem Spans.tokenRead_brace (h : Spans p start stop (('{', i) :: t)) (hbranch : Option.Rel (Reads p) read? tokens?) :
    TokenRead (tokenOf (text p) read? start stop '{' (text t).head?) tokens? start ('{', i) t := by
  have hclosing := h.lookAt_closers_eq
  cases hsplit : split? 0 (text t) with
  | none =>
    rw [hsplit] at hclosing
    refine tokenRead_single (by simp) (readToken_plain (by simp) (by simp) (by simp) (.inr fun _ => hsplit)) ?_
    show lookAt (closers (text p)) start >>= _ = _
    rw [hclosing]
    rfl
  | some found =>
    obtain ⟨inside, j, rest, rfl, hinside⟩ := exists_walk_of_split? hsplit
    have hlength : start + (('{', i) :: (inside ++ [('}', j)])).length = start + 1 + inside.length + 1 := by simp; omega
    have hlt : start + 1 + inside.length < stop := by
      rw [h.stop_eq]
      simp only [List.length_cons, List.length_append]
      omega
    rw [split?_group hinside, Option.map_some, length_text] at hclosing
    cases hbranch with
    | none =>
      refine tokenRead_single (by simp) (readToken_plain (by simp) (by simp) (by simp) (.inl rfl)) ?_
      show lookAt (closers (text p)) start >>= _ = _
      rw [hclosing]
      exact if_pos hlt
    | @some read tokens hread =>
      refine ⟨groupToken tokens (text inside), ('{', i) :: (inside ++ [('}', j)]), rest, by simp,
        List.cons_ne_nil _ _, fun _ => (Balanced.group hinside).units, readToken_group hinside, ?_⟩
      show lookAt (closers (text p)) start >>= _ = _
      rw [hclosing, hlength]
      show (if start + 1 + inside.length < stop then groupAt (text p) read start _ >>= _ else _) = _
      rw [if_pos hlt, h.groupAt_eq hinside hread]
      rfl

theorem tokenOf_plain {c : Char} (hescape : c ≠ '\\') (hstar : c ≠ '*') (hbracket : c ≠ '[') (hbrace : c ≠ '{')
    (s : List Char) (start stop : Nat) (after : Option Char) :
    tokenOf s read? start stop c after = .ok (plainToken c, start + 1) := by
  unfold tokenOf plainToken
  split
  · exact absurd rfl hescape
  · exact absurd rfl hstar
  · rfl
  · exact absurd rfl hbracket
  · exact absurd rfl hbrace
  · rename_i hquestion _ _
    rw [if_neg hquestion]
    rfl

/-- A token is read in place. -/
theorem Spans.tokenAt_eq (h : Spans p start stop (c :: t)) (hbranch : Option.Rel (Reads p) read? tokens?) :
    TokenRead (tokenAt (text p) read? stop start) tokens? start c t := by
  have htoken : tokenAt (text p) read? stop start = tokenOf (text p) read? start stop c.1 (text t).head? := by
    rw [tokenAt, h.peekAt_eq]
    show lookAt (text p) start >>= _ = _
    rw [h.lookAt_eq]
    rfl
  rw [htoken]
  obtain ⟨c, i⟩ := c
  by_cases hescape : c = '\\'
  · subst hescape
    exact tokenRead_escape _ _ _ _ _
  by_cases hstar : c = '*'
  · subst hstar
    exact tokenRead_star _ _ _ _ _
  by_cases hbracket : c = '['
  · subst hbracket
    exact h.tokenRead_bracket
  by_cases hbrace : c = '{'
  · subst hbrace
    exact h.tokenRead_brace hbranch
  refine tokenRead_single hescape (readToken_plain hescape hstar hbracket (.inr fun h => absurd h hbrace)) ?_
  exact tokenOf_plain hescape hstar hbracket hbrace _ _ _ _

/-- The tokens of a range are those of its text. -/
theorem Spans.tokensFrom_eq (h : Spans p start stop t) (hbranch : Option.Rel (Reads p) read? tokens?) :
    tokensFrom (text p) read? stop start = .ok (tokensWith tokens? (text t)) := by
  induction hlength : t.length using Nat.strong_induction_on generalizing t start with
  | _ length ih =>
    cases t with
    | nil =>
      rw [tokensFrom, if_neg (by simp [h.stop_eq])]
      exact congrArg Except.ok tokensWith_nil.symm
    | cons c t =>
      obtain ⟨token, x, rest, hsplit, hne, hunits, htoken, hread⟩ := h.tokenAt_eq hbranch
      have hpos := List.length_pos_iff.2 hne
      have hall : (c :: t).length = x.length + rest.length := by rw [hsplit, List.length_append]
      have hstop := h.stop_eq
      rw [hall] at hlength hstop
      have hrest : Spans p (start + x.length) stop rest := (hsplit ▸ h).behind hunits
      rw [tokensFrom, if_pos (by omega), hread]
      show stepTo start (start + x.length) stop >>= _ = _
      rw [stepTo_eq ⟨by omega, by omega⟩]
      show tokensFrom (text p) read? stop (start + x.length) >>= _ = _
      rw [ih rest.length (by omega) hrest rfl, text_cons, tokensWith, htoken]
      rfl

theorem reads_tokensOfRange (hbranch : Option.Rel (Reads p) read? tokens?) :
    Reads p (tokensOfRange (text p) read?) (tokensWith tokens?) := by
  intro start stop t h
  rw [tokensOfRange, inRange_eq h.inRange]
  exact h.tokensFrom_eq hbranch

/-- However deep groups may nest, a range is read in place. -/
theorem reads_rangeWithin (levels : Nat) : Reads p (rangeWithin (text p) levels) (tokensWithin levels) := by
  induction levels with
  | zero => exact reads_tokensOfRange .none
  | succ levels ih => exact reads_tokensOfRange (.some ih)

theorem tokensInPlace_eq (s : List Char) : tokensInPlace s = .ok (tokenize s) := by
  have hread := reads_rangeWithin maxDepth 0 s.zipIdx.length s.zipIdx (spans_whole s.zipIdx)
  rwa [text_zipIdx, List.length_zipIdx] at hread

/-- The branches of a group cut up what is inside its braces without loss, and a pattern that is read by places is read
as it is by texts: nothing is looked at that is not there, no range is inverted, every step goes forward within its
range, and no group reaches out of the range that it is opened in. -/
theorem branches_and_tokens_in_place (pattern : List Char) :
    (∀ opening closing, (opening, closing) ∈ pairs pattern →
      rangesInPlace pattern opening closing = .ok (branchRanges pattern opening closing) ∧
      CutsInto (commasOf pattern opening closing) (opening + 1) closing (branchRanges pattern opening closing) ∧
      ∀ pair ∈ pairs pattern, opening < pair.1 → pair.2 < closing →
        ∃ range ∈ branchRanges pattern opening closing, range.1 ≤ pair.1 ∧ pair.2 < range.2) ∧
    tokensInPlace pattern = .ok (tokenize pattern) := by
  refine ⟨fun opening closing hpair => ⟨?_, ?_, ?_⟩, tokensInPlace_eq pattern⟩
  · exact rangesInPlace_eq_branchRanges hpair
  · exact cutsInto_branchRanges hpair
  · exact fun pair hpair' => exists_range_of_nested hpair hpair'

end LineEndings.Glob

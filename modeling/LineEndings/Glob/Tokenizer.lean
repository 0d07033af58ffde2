/-
Reading a pattern as tokens.

Reading never fails. A backslash at the end, a `[` that is not closed and a `{` that is not closed
stand for themselves. A class or a branch ends at the latest where the branch around it ends, because
each branch is read as a text of its own. Branches that can never match are dropped, and a group left
without any becomes `never`, so `never` only stands at top level.

`readToken` reads one token and gives the text after it, which is never longer than before
(`readToken_length_le`); `tokensWith` repeats it. Groups may nest `maxDepth` deep, and braces beyond
that stand for themselves.
-/
import LineEndings.Glob.Token
import LineEndings.Glob.Brace

namespace LineEndings.Glob

/-- How deep groups may nest. -/
def maxDepth : Nat := 64

/-! ### Bracket expressions -/

/-- From just after a `[`: the text up to the `]` that closes it and the text after that. -/
def splitBracket? : List Char → Option (List Char × List Char)
  | [] => none
  | '\\' :: [] => none
  | '\\' :: c :: s => (splitBracket? s).map fun (inside, rest) => ('\\' :: c :: inside, rest)
  | c :: s =>
    if c = ']' then some ([], s)
    else (splitBracket? s).map fun (inside, rest) => (c :: inside, rest)

/-- The `]` stands between what is inside and what comes after. -/
theorem eq_append_of_splitBracket? {s inside rest : List Char}
    (h : splitBracket? s = some (inside, rest)) : s = inside ++ ']' :: rest := by
  fun_induction splitBracket? s generalizing inside with
  | case1 => cases h
  | case2 => cases h
  | case3 c s ih =>
    obtain ⟨⟨inner, rest'⟩, hs, he⟩ := Option.map_eq_some_iff.1 h
    cases he
    simp [ih hs]
  | case4 => simp_all
  | case5 c s _ _ _ ih =>
    obtain ⟨⟨inner, rest'⟩, hs, he⟩ := Option.map_eq_some_iff.1 h
    cases he
    simp [ih hs]

/-- One character of a bracket expression, which a backslash may precede, and the text after it. -/
def readClassChar (c : Char) (s : List Char) : Char × List Char :=
  match c, s with
  | '\\', d :: s => (d, s)
  | _, _ => (c, s)

theorem readClassChar_length_le (c : Char) (s : List Char) :
    (readClassChar c s).2.length ≤ s.length := by
  unfold readClassChar
  split <;> simp

/-- The items of a bracket expression. A range that runs backwards lists nothing; a `-` in last place
is a plain character. -/
def classItems : List Char → List ClassItem
  | [] => []
  | c :: s =>
    match _h : (readClassChar c s).2 with
    | '-' :: d :: r =>
      let low := (readClassChar c s).1
      let high := (readClassChar d r).1
      if low ≤ high then .range low high :: classItems (readClassChar d r).2
      else classItems (readClassChar d r).2
    | r => .single (readClassChar c s).1 :: classItems r
  termination_by s => s.length
  decreasing_by
    -- Reading a character never gives back more text than it was given.
    all_goals
      have h₁ := readClassChar_length_le c s
      rw [_h] at h₁
      try have h₂ := readClassChar_length_le d r
      simp only [List.length_cons] at *
      omega

/-- The token for what stands between `[` and `]`. A class that lists nothing never matches. -/
def classToken (inside : List Char) : Token :=
  let (negated, body) :=
    match inside with
    | '!' :: body => (true, body)
    | '^' :: body => (true, body)
    | _ => (false, inside)
  let items := classItems body
  if items.isEmpty && !negated then .never else .charClass ⟨negated, items⟩

/-! ### Sequences -/

/-- The token for what stands between `{` and `}`, given how a branch is read. -/
def groupToken (branch : List Char → List Token) (inside : List Char) : Token :=
  let branches := ((Brace.cut inside).map branch).filter (!dead ·)
  if branches.isEmpty then .never else .group branches

/-- The token that starts with `c` before the text `s`, and the text after it. `branch` reads a branch
of a group; without it, braces stand for themselves. -/
def readToken (branch : Option (List Char → List Token)) (c : Char) (s : List Char) :
    Token × List Char :=
  match c with
  | '\\' =>
    match s with
    | [] => (.literal '\\', [])
    | d :: s => (.literal d, s)
  | '*' =>
    match s with
    | '*' :: s => (.globStar, s)
    | s => (.star, s)
  | '?' => (.question, s)
  | '[' =>
    match splitBracket? s with
    | some (inside, rest) => (classToken inside, rest)
    | none => (.literal '[', s)
  | '{' =>
    match branch, Brace.split? 0 s with
    | some branch, some (inside, rest) => (groupToken branch inside, rest)
    | _, _ => (.literal '{', s)
  | c => (.literal c, s)

theorem readToken_length_le (branch : Option (List Char → List Token)) (c : Char) (s : List Char) :
    (readToken branch c s).2.length ≤ s.length := by
  unfold readToken
  split
  · split <;> simp
  · split <;> simp
  · simp
  · split
    · rename_i h
      simp [eq_append_of_splitBracket? h]; omega
    · simp
  · split
    · rename_i h
      simp [Brace.eq_append_of_split? h]; omega
    · simp
  · simp

/-- The tokens of a text, given how a branch of a group is read. -/
def tokensWith (branch : Option (List Char → List Token)) : List Char → List Token
  | [] => []
  | c :: s => (readToken branch c s).1 :: tokensWith branch (readToken branch c s).2
  termination_by s => s.length
  decreasing_by exact Nat.lt_succ_of_le (readToken_length_le ..)

/-- The tokens of a text, where groups may nest `levels` deep. -/
def tokensWithin : Nat → List Char → List Token
  | 0 => tokensWith none
  | levels + 1 => tokensWith (some (tokensWithin levels))

/-- The tokens of a pattern. -/
def tokenize (pattern : List Char) : List Token :=
  tokensWithin maxDepth pattern

end LineEndings.Glob

/-
Braces in a pattern.

A backslash takes the next character with it, so what follows one is neither a brace nor a comma. Of
the other braces, an opening one is closed by the first closing brace after it that is not taken by a
brace opened in between. `Brace.split?` reads a group from just after its opening brace, and
`Brace.cut` cuts a text at its commas outside of braces; both count how many braces are open.

`Brace.pairs` and `Brace.branchRanges` say the same by positions in the pattern.
-/

namespace LineEndings.Glob.Brace

/-- From inside a group with `opened` groups open within it: the text up to the brace that closes it
and the text after that brace; nothing if the group is never closed. -/
def split? (opened : Nat) : List Char → Option (List Char × List Char)
  | [] => none
  | '\\' :: [] => none
  | '\\' :: c :: s => (split? opened s).map fun (inside, rest) => ('\\' :: c :: inside, rest)
  | c :: s =>
    if c = '}' then
      match opened with
      | 0 => some ([], s)
      | opened + 1 => (split? opened s).map fun (inside, rest) => (c :: inside, rest)
    else
      (split? (if c = '{' then opened + 1 else opened) s).map fun (inside, rest) =>
        (c :: inside, rest)

/-- The closing brace stands between what is inside and what comes after. -/
theorem eq_append_of_split? {opened : Nat} {s inside rest : List Char}
    (h : split? opened s = some (inside, rest)) : s = inside ++ '}' :: rest := by
  fun_induction split? opened s generalizing inside with
  | case1 => cases h
  | case2 => cases h
  | case3 opened c s ih =>
    obtain ⟨⟨inner, rest'⟩, hs, he⟩ := Option.map_eq_some_iff.1 h
    cases he
    simp [ih hs]
  | case4 => simp_all
  | case5 s opened _ _ ih =>
    obtain ⟨⟨inner, rest'⟩, hs, he⟩ := Option.map_eq_some_iff.1 h
    cases he
    simp [ih hs]
  | case6 opened c s _ _ _ ih =>
    obtain ⟨⟨inner, rest'⟩, hs, he⟩ := Option.map_eq_some_iff.1 h
    cases he
    simp [ih hs]

/-- Put `s` in front of the first part. -/
def prependFirst {α : Type} (s : List α) : List (List α) → List (List α)
  | [] => [s]
  | part :: parts => (s ++ part) :: parts

/-- The parts of a text between its commas outside of braces, with `opened` braces open at its start.
A closing brace with nothing open counts for nothing. -/
def cutFrom (opened : Nat) : List Char → List (List Char)
  | [] => [[]]
  | '\\' :: [] => [['\\']]
  | '\\' :: c :: s => prependFirst ['\\', c] (cutFrom opened s)
  | c :: s =>
    if c = ',' ∧ opened = 0 then [] :: cutFrom opened s
    else
      prependFirst [c]
        (cutFrom (if c = '{' then opened + 1 else if c = '}' then opened - 1 else opened) s)

/-- The parts of a text between its commas outside of braces. -/
def cut (s : List Char) : List (List Char) :=
  cutFrom 0 s

/-! ### Positions -/

/-- The pairs `(opening, closing)` of matching braces, for a text that starts at position `start`, in
the order of their opening braces. -/
def pairsFrom (start : Nat) : List Char → List (Nat × Nat)
  | [] => []
  | '\\' :: [] => []
  | '\\' :: _ :: s => pairsFrom (start + 2) s
  | c :: s =>
    if c = '{' then
      match split? 0 s with
      | some (inside, _) => (start, start + 1 + inside.length) :: pairsFrom (start + 1) s
      | none => pairsFrom (start + 1) s
    else pairsFrom (start + 1) s

/-- The pairs `(opening, closing)` of matching braces of a pattern. -/
def pairs (pattern : List Char) : List (Nat × Nat) :=
  pairsFrom 0 pattern

/-- The half-open ranges that consecutive parts cover, one separator apart. -/
def rangesFrom (start : Nat) : List (List Char) → List (Nat × Nat)
  | [] => []
  | part :: parts =>
    (start, start + part.length) :: rangesFrom (start + part.length + 1) parts

/-- The ranges of the branches of the group between the braces at `opening` and `closing`. -/
def branchRanges (pattern : List Char) (opening closing : Nat) : List (Nat × Nat) :=
  rangesFrom (opening + 1) (cut ((pattern.take closing).drop (opening + 1)))

end LineEndings.Glob.Brace

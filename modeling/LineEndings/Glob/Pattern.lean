/-
A compiled glob pattern.

A pattern is trimmed before it is read. If it holds a `/`, it is compared with the whole path, and one
leading `/` is dropped; otherwise it is compared with the last segment of the path. A backslash in a
path counts as a separator. A blank pattern, and one with `never` at top level, match no path.
-/
import LineEndings.Text.Blank
import LineEndings.Glob.Tokenizer
import LineEndings.Glob.Matcher

namespace LineEndings.Glob

/-- What part of a path a pattern is compared with. -/
inductive Scope where
  | fullPath
  | basename
  deriving Repr, DecidableEq

/-- A compiled pattern; `tokens?` is absent when no path can match. -/
structure Pattern where
  raw : String
  scope : Scope
  tokens? : Option (List Token)
  deriving Repr

/-! ### The number of alternatives -/

/-- The largest number of alternatives that is told apart. -/
def maxAlternatives : Nat := Nat.pow 2 64 - 1

mutual

/-- In how many ways one branch can be chosen in every group of a token, up to `maxAlternatives`. -/
def Token.alternatives : Token → Nat
  | .group branches => sumAlternatives branches
  | _ => 1

/-- In how many ways branches can be chosen in a sequence, up to `maxAlternatives`. -/
def alternatives : List Token → Nat
  | [] => 1
  | token :: tokens => min maxAlternatives (token.alternatives * alternatives tokens)

/-- The alternatives of all branches of a group together, up to `maxAlternatives`. -/
def sumAlternatives : List (List Token) → Nat
  | [] => 0
  | branch :: branches => min maxAlternatives (alternatives branch + sumAlternatives branches)

end

/-! ### Compiling and matching -/

/-- The text with every backslash turned into a separator. -/
def slashed (path : List Char) : List Char :=
  path.map fun c => if c = '\\' then '/' else c

/-- What follows the last `/`. -/
def lastSegment (path : List Char) : List Char :=
  (path.reverse.takeWhile (· != '/')).reverse

/-- The text that is read as tokens: trimmed, without one leading `/`. -/
def patternBody (trimmed : List Char) : List Char :=
  match trimmed with
  | '/' :: body => body
  | body => body

/-- Compile a pattern; this never fails. -/
def Pattern.compile (raw : String) : Pattern :=
  let trimmed := Text.trim raw.toList
  let tokens := tokenize (patternBody trimmed)
  { raw
    scope := if '/' ∈ trimmed then .fullPath else .basename
    tokens? := if trimmed.isEmpty || dead tokens then none else some tokens }

/-- The part of a path that a pattern is compared with. -/
def Pattern.target (pattern : Pattern) (path : List Char) : List Char :=
  match pattern.scope with
  | .fullPath => slashed path
  | .basename => lastSegment (slashed path)

/-- Whether a path matches. -/
def Pattern.matches (pattern : Pattern) (path : String) : Bool :=
  match pattern.tokens? with
  | none => false
  | some tokens => accepts tokens (pattern.target path.toList)

/-- The number of alternatives that can match, braces multiplied out; at most `maxAlternatives`. -/
def Pattern.alternatives (pattern : Pattern) : Nat :=
  match pattern.tokens? with
  | none => 0
  | some tokens => Glob.alternatives tokens

end LineEndings.Glob

/-
Lower case of a text.

Every character goes to its lower case on its own (`lowerChar`, two characters for İ), except that a
capital sigma becomes the final form ς where a word ends: some cased character stands before it and
none after it, characters without influence on case (accents, apostrophes) being passed over
(`isWordFinal`). ASCII text needs no table.
-/
import LineEndings.Text.LowerCase.Table

namespace LineEndings.Text

namespace LowerCase

/-- Whether `n` lies in one of the ranges. -/
def inRanges (ranges : Array (Nat × Nat)) (n : Nat) : Bool :=
  ranges.any fun (low, high) => low ≤ n && n ≤ high

/-- The lower case of a code point by the table, if it is one other code point. -/
def image? (n : Nat) : Option Nat :=
  (lowerRuns.find? fun (low, high, step, _) => low ≤ n && n ≤ high && (n - low) % step == 0).map
    fun (low, _, _, image) => image + (n - low)

end LowerCase

/-- The lower case of one character, without regard to its neighbours. -/
def lowerChar (c : Char) : List Char :=
  if c.toNat < 0x80 then [c.toLower]
  else if c = 'İ' then ['i', '\u0307']
  else match LowerCase.image? c.toNat with
    | some n => [Char.ofNat n]
    | none => [c]

/-- Whether the first character with influence on case is a cased one. -/
def meetsCased (s : List Char) : Bool :=
  match s.dropWhile fun c => LowerCase.inRanges LowerCase.caseIgnorable c.toNat with
  | [] => false
  | c :: _ => LowerCase.inRanges LowerCase.cased c.toNat

/-- Whether a sigma ends a word, given the text before it, nearest character first, and after it. -/
def isWordFinal (before after : List Char) : Bool :=
  meetsCased before && !meetsCased after

/-- The lower case of `s`, where `before` is the text that precedes it, nearest character first, and
`lowered` is what has been written, last character first. -/
def lowerCaseFrom (before lowered : List Char) : List Char → List Char
  | [] => lowered.reverse
  | c :: s =>
    let image :=
      if c = 'Σ' then (if isWordFinal before s then ['ς'] else ['σ']) else lowerChar c
    lowerCaseFrom (c :: before) (image.reverse ++ lowered) s

/-- The lower case of a text. -/
def lowerCase (s : List Char) : List Char :=
  lowerCaseFrom [] [] s

/-- The lower case of a string. -/
def lowered (s : String) : String :=
  String.ofList (lowerCase s.toList)

end LineEndings.Text

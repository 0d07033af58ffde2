/-
Numerals: numbers as they are written.

A numeral is read for its form alone (`Numeral.ofLiteral?`). An underscore in it must have digits around
it, where a whole number takes the digits of every base for digits, so some numerals stand for no number:
`1_a` in base ten, `0x` with no digit at all, or a whole number beyond 128 bits. Whether there is a number
is a question of its own (`Numeral.hasValue`), asked only of the values that are looked at.
-/
import LineEndings.Text.Split

namespace LineEndings.Toml

/-- A number as it is written, without its underscores. -/
inductive Numeral where
  /-- A whole number in a base, without the mark of the base. -/
  | integer (base : Nat) (written : List Char)
  /-- A number with a fraction or an exponent, or one of the words `inf` and `nan`. -/
  | float (written : List Char)
  deriving Repr, DecidableEq

/-! ### Digits -/

/-- What a digit counts, up to base 16. -/
def digitValue (c : Char) : Nat :=
  if c.isDigit then c.toNat - '0'.toNat
  else if 'a' ≤ c ∧ c ≤ 'f' then c.toNat - 'a'.toNat + 10
  else if 'A' ≤ c ∧ c ≤ 'F' then c.toNat - 'A'.toNat + 10
  else 0

/-- Whether a character is a digit in a base up to 16. -/
def isDigitOf (base : Nat) (c : Char) : Bool :=
  (c.isDigit || ('a' ≤ c && c ≤ 'f') || ('A' ≤ c && c ≤ 'F')) && digitValue c < base

/-- The number that digits spell out in a base. -/
def numberOf (base : Nat) (digits : List Char) : Nat :=
  digits.foldl (fun n c => n * base + digitValue c) 0

/-- The text after a sign, and whether the sign is a minus. -/
def splitSign : List Char → Bool × List Char
  | '-' :: s => (true, s)
  | '+' :: s => (false, s)
  | s => (false, s)

/-- A text without its underscores, each of which must stand between two digits of a base. -/
def closeGaps? (base : Nat) (s : List Char) : Option (List Char) :=
  let groups := Text.pieces '_' s
  let startsWell (group : List Char) : Bool := group.head?.any (isDigitOf base)
  let endsWell (group : List Char) : Bool := group.getLast?.any (isDigitOf base)
  if groups.tail.all startsWell && groups.dropLast.all endsWell then some groups.flatten else none

/-! ### Form -/

/-- A whole number after the mark of its base. -/
def basedLiteral? (base : Nat) (s : List Char) : Option Numeral :=
  if s.all fun c => c == '_' || isDigitOf base c then (closeGaps? base s).map (.integer base)
  else none

/-- Whether a character is a digit or an underscore. -/
def isDigitOrGap (c : Char) : Bool :=
  c.isDigit || c == '_'

/-- The text after a run of digits and underscores with a digit among them. -/
def afterDigits? (s : List Char) : Option (List Char) :=
  if (s.takeWhile isDigitOrGap).any Char.isDigit then some (s.dropWhile isDigitOrGap) else none

/-- The text after the fraction of a number, if one is there. -/
def afterDecimals? : List Char → Option (List Char)
  | '.' :: s => afterDigits? s
  | s => some s

/-- The text after the exponent of a number, if one is there. -/
def afterExponent? : List Char → Option (List Char)
  | c :: s => if c = 'e' ∨ c = 'E' then afterDigits? (splitSign s).2 else some (c :: s)
  | [] => some []

/-- Whether a text without a sign has the form of a decimal number, fraction and exponent included. Its
whole part starts with a zero only if it has no other digit. -/
def isDecimal (s : List Char) : Bool :=
  let digits := (s.takeWhile isDigitOrGap).filter Char.isDigit
  (s.head? != some '0' || digits.length == 1)
    && ((afterDigits? s).bind afterDecimals?).bind afterExponent? == some []

/-- A decimal number, or a word for one. -/
def decimalLiteral? (s : List Char) : Option Numeral :=
  let body := (splitSign s).2
  if body = ['i', 'n', 'f'] ∨ body = ['n', 'a', 'n'] then some (.float s)
  else
    let rest := body.dropWhile Char.isDigit
    let startsIdly : Bool := body.head? == some '0' && body != ['0']
    if rest.any fun c => c == '.' || c == 'e' || c == 'E' then
      if isDecimal body then (closeGaps? 10 s).map .float else none
    -- After the first underscore all but a space may come, as long as underscores have digits around them.
    else if body.isEmpty || startsIdly || rest.contains ' ' then none
    else if !(rest.isEmpty || rest.head? == some '_') then none
    else (closeGaps? 16 s).map (.integer 10)

/-- The numeral that a literal has the form of. -/
def Numeral.ofLiteral? : List Char → Option Numeral
  | '0' :: 'x' :: s => basedLiteral? 16 s
  | '0' :: 'o' :: s => basedLiteral? 8 s
  | '0' :: 'b' :: s => basedLiteral? 2 s
  | s => decimalLiteral? s

/-! ### Value -/

/-- The number that a whole number stands for, if it is one and fits 128 bits, signed or unsigned. -/
def integerValue? (base : Nat) (written : List Char) : Option Int :=
  let (negative, digits) := splitSign written
  if digits.isEmpty || !digits.all (isDigitOf base) then none
  else
    let n := numberOf base digits
    if negative then if n ≤ Nat.pow 2 127 then some (-n) else none
    else if n < Nat.pow 2 128 then some n else none

/-- Whether a decimal `digits · 10 ^ exponent` is below the numbers that round to infinity in double
precision, which start half a unit above the largest finite one. -/
def isFinite (digits : List Char) (exponent : Int) : Bool :=
  let digits := digits.dropWhile (· == '0')
  let magnitude := digits.length + exponent
  let bound := Nat.pow 2 1024 - Nat.pow 2 970
  if digits.isEmpty || magnitude < 300 then true
  else if 320 < magnitude then false
  else if 0 ≤ exponent then numberOf 10 digits * Nat.pow 10 exponent.toNat < bound
  else numberOf 10 digits < bound * Nat.pow 10 (-exponent).toNat

/-- The exponent after its letter, if there is one. -/
def exponentOf : List Char → Int
  | [] => 0
  | _ :: s =>
    let (negative, digits) := splitSign s
    if negative then -numberOf 10 digits else numberOf 10 digits

/-- Whether a decimal number does not round to infinity. -/
def isFiniteDecimal (written : List Char) : Bool :=
  let isLetter (c : Char) : Bool := c == 'e' || c == 'E'
  let body := (splitSign written).2
  let mantissa := body.takeWhile (!isLetter ·)
  let whole := mantissa.takeWhile (· != '.')
  let decimals := (mantissa.dropWhile (· != '.')).drop 1
  isFinite (whole ++ decimals) (exponentOf (body.dropWhile (!isLetter ·)) - decimals.length)

/-- Whether a numeral stands for a number. -/
def Numeral.hasValue : Numeral → Bool
  | .integer base written => (integerValue? base written).isSome
  | .float written =>
    let body := (splitSign written).2
    body = ['i', 'n', 'f'] || body = ['n', 'a', 'n'] || isFiniteDecimal written

end LineEndings.Toml

/-
Bare scalars: booleans, numbers, dates and times.

A bare scalar is a run of words without quotes, blanks between them included, and its form alone says what
it is. Numbers are kept as numerals (`LineEndings.Toml.Numeral`). Dates exist in the Gregorian calendar;
seconds may be missing, and may be 60.
-/
import LineEndings.Toml.Value

namespace LineEndings.Toml

/-! ### Dates and times -/

/-- The number that two digits spell out. -/
def twoDigits? (a b : Char) : Option Nat :=
  if a.isDigit && b.isDigit then some (numberOf 10 [a, b]) else none

/-- How many days a month has. -/
def daysIn (year month : Nat) : Nat :=
  if month = 2 then
    if year % 4 = 0 ∧ (year % 100 ≠ 0 ∨ year % 400 = 0) then 29 else 28
  else if month = 4 ∨ month = 6 ∨ month = 9 ∨ month = 11 then 30
  else 31

/-- The text after a date. -/
def afterDate? : List Char → Option (List Char)
  | y₁ :: y₂ :: y₃ :: y₄ :: '-' :: m₁ :: m₂ :: '-' :: d₁ :: d₂ :: s => do
    let century ← twoDigits? y₁ y₂
    let year ← twoDigits? y₃ y₄
    let month ← twoDigits? m₁ m₂
    let day ← twoDigits? d₁ d₂
    if 1 ≤ month ∧ month ≤ 12 ∧ 1 ≤ day ∧ day ≤ daysIn (100 * century + year) month then some s
    else none
  | _ => none

/-- The text after a fraction of a second, if one is there. -/
def afterFraction? : List Char → Option (List Char)
  | '.' :: s => if (s.takeWhile Char.isDigit).isEmpty then none else some (s.dropWhile Char.isDigit)
  | s => some s

/-- The text after a time of the day. -/
def afterTime? : List Char → Option (List Char)
  | h₁ :: h₂ :: ':' :: m₁ :: m₂ :: s => do
    let hour ← twoDigits? h₁ h₂
    let minute ← twoDigits? m₁ m₂
    if hour ≤ 23 ∧ minute ≤ 59 then
      match s with
      | ':' :: s₁ :: s₂ :: s => do
        let second ← twoDigits? s₁ s₂
        if second ≤ 60 then afterFraction? s else none
      | s => some s
    else none
  | _ => none

/-- Whether a text is the offset of a time zone. -/
def isOffset : List Char → Bool
  | ['Z'] | ['z'] => true
  | [sign, h₁, h₂, ':', m₁, m₂] =>
    (sign == '+' || sign == '-') && (twoDigits? h₁ h₂).any (· ≤ 23) && (twoDigits? m₁ m₂).any (· ≤ 59)
  | _ => false

/-- Whether a text is a date, a time, or both with or without an offset. -/
def isDateTime (s : List Char) : Bool :=
  match afterDate? s with
  | some [] => true
  | some (c :: s) =>
    (c == 'T' || c == 't' || c == ' ') && (afterTime? s).any fun s => s.isEmpty || isOffset s
  | none => afterTime? s == some []

/-! ### All together -/

/-- The value of a bare scalar. -/
def scalar? (s : List Char) : Option Value :=
  if s = ['t', 'r', 'u', 'e'] then some (.boolean true)
  else if s = ['f', 'a', 'l', 's', 'e'] then some (.boolean false)
  else if isDateTime s then some (.dateTime (String.ofList s))
  else (Numeral.ofLiteral? s).map .number

end LineEndings.Toml

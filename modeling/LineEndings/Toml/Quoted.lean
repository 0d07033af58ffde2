/-
Quoted text.

There are four forms: basic text takes escapes, literal text does not, and either may run over several
lines when its quotes are tripled. A reader gets the text after the opening quotes and gives what is
quoted, and the text after the closing quotes. A line break right after tripled quotes does not count,
and up to two quotes may stand before the closing ones.
-/

namespace LineEndings.Toml

/-- Whether a character may stand in text and comments: not a control character, a tab excepted. -/
def isPlain (c : Char) : Bool :=
  c == '\t' || (0x20 ≤ c.toNat && c.toNat != 0x7f)

/-- What a hexadecimal digit counts. -/
def hexValue? (c : Char) : Option Nat :=
  if c.isDigit then some (c.toNat - '0'.toNat)
  else if 'a' ≤ c ∧ c ≤ 'f' then some (c.toNat - 'a'.toNat + 10)
  else if 'A' ≤ c ∧ c ≤ 'F' then some (c.toNat - 'A'.toNat + 10)
  else none

/-- The character whose code stands at the start in `count` hexadecimal digits, and the rest. -/
def readCode? (count : Nat) (s : List Char) : Option (Char × List Char) := do
  let values ← (s.take count).mapM hexValue?
  let n := values.foldl (fun n v => n * 16 + v) 0
  if values.length = count ∧ n.isValidChar then some (Char.ofNat n, s.drop count) else none

/-- The character that an escape stands for, from after the backslash, and the rest. -/
def readEscape? : List Char → Option (Char × List Char)
  | 'b' :: s => some ('\x08', s)
  | 't' :: s => some ('\t', s)
  | 'n' :: s => some ('\n', s)
  | 'f' :: s => some ('\x0c', s)
  | 'r' :: s => some ('\r', s)
  | 'e' :: s => some ('\x1b', s)
  | '"' :: s => some ('"', s)
  | '\\' :: s => some ('\\', s)
  | 'x' :: s => readCode? 2 s
  | 'u' :: s => readCode? 4 s
  | 'U' :: s => readCode? 8 s
  | _ => none

/-- The text after a line break, if one is there. -/
def afterBreak? : List Char → Option (List Char)
  | '\n' :: s => some s
  | '\r' :: '\n' :: s => some s
  | _ => none

/-! ### One line -/

/-- Literal text on one line. -/
def readLiteral? : List Char → Option (List Char × List Char)
  | [] => none
  | '\'' :: s => some ([], s)
  | c :: s => if isPlain c then (readLiteral? s).map fun (t, rest) => (c :: t, rest) else none

/-- Basic text on one line; `fuel` bounds the number of characters. -/
def readBasic? : Nat → List Char → Option (List Char × List Char)
  | 0, _ | _, [] => none
  | fuel + 1, c :: s =>
    if c = '"' then some ([], s)
    else if c = '\\' then do
      let (d, s) ← readEscape? s
      let (t, rest) ← readBasic? fuel s
      some (d :: t, rest)
    else if isPlain c then (readBasic? fuel s).map fun (t, rest) => (c :: t, rest)
    else none

/-! ### Several lines -/

/-- The end of tripled quotes: what of the quotes at the start is still text, and the rest. -/
def closing? (quote : Char) (s : List Char) : Option (List Char × List Char) :=
  let count := (s.takeWhile (· == quote)).length
  if count < 3 then none
  else
    let spare := min (count - 3) 2
    some (List.replicate spare quote, s.drop (spare + 3))

/-- The text after a line break that follows the opening quotes. -/
def skipFirstBreak (s : List Char) : List Char :=
  (afterBreak? s).getD s

/-- Literal text that may run over several lines. -/
def readLongLiteral? : Nat → List Char → Option (List Char × List Char)
  | 0, _ | _, [] => none
  | fuel + 1, c :: s =>
    match closing? '\'' (c :: s) with
    | some closed => some closed
    | none =>
      if c = '\r' then
        match s with
        | '\n' :: s => (readLongLiteral? fuel s).map fun (t, rest) => ('\r' :: '\n' :: t, rest)
        | _ => none
      else if isPlain c || c == '\n' then
        (readLongLiteral? fuel s).map fun (t, rest) => (c :: t, rest)
      else none

/-- The text after blanks and line breaks. -/
def skipBlankLines : List Char → List Char
  | ' ' :: s => skipBlankLines s
  | '\t' :: s => skipBlankLines s
  | '\n' :: s => skipBlankLines s
  | '\r' :: '\n' :: s => skipBlankLines s
  | s => s

/-- Whether a backslash before this text takes the line break at the end of the line with it. -/
def endsLine (s : List Char) : Bool :=
  (afterBreak? (s.dropWhile fun c => c == ' ' || c == '\t')).isSome

/-- Basic text that may run over several lines. -/
def readLongBasic? : Nat → List Char → Option (List Char × List Char)
  | 0, _ | _, [] => none
  | fuel + 1, c :: s =>
    match closing? '"' (c :: s) with
    | some closed => some closed
    | none =>
      if c = '\\' then
        if endsLine s then readLongBasic? fuel (skipBlankLines s)
        else do
          let (d, s) ← readEscape? s
          let (t, rest) ← readLongBasic? fuel s
          some (d :: t, rest)
      else if c = '\r' then
        match s with
        | '\n' :: s => (readLongBasic? fuel s).map fun (t, rest) => ('\r' :: '\n' :: t, rest)
        | _ => none
      else if isPlain c || c == '\n' then
        (readLongBasic? fuel s).map fun (t, rest) => (c :: t, rest)
      else none

/-! ### Any form -/

/-- Quoted text on one line, from its opening quote on. -/
def readShort? : List Char → Option (List Char × List Char)
  | '"' :: s => readBasic? s.length s
  | '\'' :: s => readLiteral? s
  | _ => none

/-- Quoted text, from its opening quotes on. -/
def readQuoted? : List Char → Option (List Char × List Char)
  | '"' :: '"' :: '"' :: s => readLongBasic? s.length (skipFirstBreak s)
  | '\'' :: '\'' :: '\'' :: s => readLongLiteral? s.length (skipFirstBreak s)
  | s => readShort? s

end LineEndings.Toml

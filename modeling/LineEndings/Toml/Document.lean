/-
Reading a TOML document.

A document is a sequence of statements, one to a line: `key = value`, `[table]` and `[[array]]`. The
first kind adds to the table that the last header before it names. `document?` gives the table of the
whole document, or nothing if some line cannot be read or contradicts an earlier one. Arrays and literal
tables may run over several lines and nest up to `maxNesting` deep.
-/
import LineEndings.Toml.Scalar
import LineEndings.Toml.Quoted
import LineEndings.Toml.Table

namespace LineEndings.Toml

/-- How deep arrays and literal tables may nest. -/
def maxNesting : Nat := 80

/-- How many keys a dotted key or a header may have. -/
def maxKeys : Nat := 80

/-! ### Blanks and comments -/

/-- Whether a character is a blank that does not end the line. -/
def isInlineBlank (c : Char) : Bool :=
  c == ' ' || c == '\t'

/-- The text after blanks on the same line. -/
def skipBlanks (s : List Char) : List Char :=
  s.dropWhile isInlineBlank

/-- The text after blanks, line breaks and comments; `inComment` says that it starts in a comment. -/
def skipLines? (inComment : Bool) : List Char → Option (List Char)
  | [] => some []
  | '\n' :: s => skipLines? false s
  | '\r' :: '\n' :: s => skipLines? false s
  | c :: s =>
    if inComment then if isPlain c then skipLines? true s else none
    else if c = ' ' ∨ c = '\t' then skipLines? false s
    else if c = '#' then skipLines? true s
    else some (c :: s)

/-- The text of the next line, where nothing but a comment may stand on the rest of this one. -/
def nextLine? (s : List Char) : Option (List Char) :=
  let rest := match skipBlanks s with
    | '#' :: s => s.dropWhile isPlain
    | s => s
  match rest with
  | [] => some []
  | s => afterBreak? s

/-! ### Keys -/

/-- Whether a character may stand in a key without quotes. -/
def isKeyChar (c : Char) : Bool :=
  c.isAlphanum || c == '_' || c == '-'

/-- One key, and the rest. -/
def readKey? (s : List Char) : Option (String × List Char) :=
  match s.head? with
  | some '"' | some '\'' =>
    if s.take 3 = ['"', '"', '"'] ∨ s.take 3 = ['\'', '\'', '\''] then none
    else (readShort? s).map fun (key, rest) => (String.ofList key, rest)
  | _ =>
    let key := s.takeWhile isKeyChar
    if key.isEmpty then none else some (String.ofList key, s.dropWhile isKeyChar)

/-- At most `limit` keys with dots between them, the last one apart, and the rest. -/
def readPath? : Nat → List Char → Option (List String × String × List Char)
  | 0, _ => none
  | limit + 1, s => do
    let (key, s) ← readKey? s
    match skipBlanks s with
    | '.' :: s => do
      let (path, last, s) ← readPath? limit (skipBlanks s)
      some (key :: path, last, s)
    | s => some ([], key, s)

/-! ### Values -/

/-- Whether a character ends a bare scalar. -/
def endsScalar (c : Char) : Bool :=
  [',', ']', '\x7d', ' ', '\t', '#', '\r', '\n', '=', '[', '\x7b'].contains c

/-- Whether a character may go on with a bare scalar after blanks. -/
def startsWord (c : Char) : Bool :=
  !endsScalar c && c != '"' && c != '\''

/-- The text of a bare scalar, and the rest. Words with blanks between them are one scalar. -/
def splitScalar (s : List Char) : List Char × List Char :=
  let word := s.takeWhile (!endsScalar ·)
  match _h : s.dropWhile (!endsScalar ·) with
  | [] => (word, [])
  | c :: rest =>
    let blanks := rest.takeWhile isInlineBlank
    match _h' : rest.dropWhile isInlineBlank with
    | [] => (word, c :: rest)
    | d :: more =>
      if isInlineBlank c && startsWord d then
        let (text, after) := splitScalar (d :: more)
        (word ++ c :: blanks ++ text, after)
      else (word, c :: rest)
  termination_by s.length
  decreasing_by
    have h₁ := (List.dropWhile_sublist (!endsScalar ·) (l := s)).length_le
    have h₂ := (List.dropWhile_sublist isInlineBlank (l := rest)).length_le
    rw [_h] at h₁
    rw [_h'] at h₂
    simp only [List.length_cons] at *
    omega

/-- A bare scalar, and the rest. -/
def readScalar? (s : List Char) : Option (Value × List Char) :=
  let (text, rest) := splitScalar s
  (scalar? text).map fun value => (value, rest)

/-- The items of an array, from after its bracket or a comma. -/
def readItems? (item : List Char → Option (Value × List Char)) :
    Nat → List Char → Option (List Value × List Char)
  | 0, _ => none
  | fuel + 1, s => do
    match ← skipLines? false s with
    -- A comma may stand before the bracket.
    | ']' :: s => some ([], s)
    | s =>
      let (value, s) ← item s
      match ← skipLines? false s with
      | ',' :: s =>
        let (values, s) ← readItems? item fuel s
        some (value :: values, s)
      | ']' :: s => some ([value], s)
      | _ => none

/-- The entries of a literal table, from after its brace or a comma, added to `entries`. -/
def readEntries? (item : List Char → Option (Value × List Char)) :
    Nat → Entries → List Char → Option (Entries × List Char)
  | 0, _, _ => none
  | fuel + 1, entries, s => do
    match ← skipLines? false s with
    -- A comma may stand before the brace.
    | '\x7d' :: s => some (entries, s)
    | s =>
      let (path, key, s) ← readPath? maxKeys s
      match ← skipLines? false s with
      | '=' :: s =>
        let (value, s) ← item (← skipLines? false s)
        let entries ← entries.assign path key value
        match ← skipLines? false s with
        | ',' :: s => readEntries? item fuel entries s
        | '\x7d' :: s => some (entries, s)
        | _ => none
      | _ => none

/-- A value, and the rest; `levels` bounds how deep it nests. -/
def readValue? : Nat → List Char → Option (Value × List Char)
  | levels, c :: s =>
    if c = '"' ∨ c = '\'' then
      (readQuoted? (c :: s)).map fun (t, rest) => (.text (String.ofList t), rest)
    else if c = '[' then
      match levels with
      | 0 => none
      | levels + 1 =>
        (readItems? (readValue? levels) s.length s).map fun (items, rest) => (.array items, rest)
    else if c = '\x7b' then
      match levels with
      | 0 => none
      | levels + 1 =>
        (readEntries? (readValue? levels) s.length [] s).map fun (entries, rest) =>
          (.table (finished entries), rest)
    else readScalar? (c :: s)
  | _, [] => none

/-! ### Statements -/

/-- The path of the table that statements add to; none is the document itself. -/
abbrev Current := Option (List String × String)

/-- Add a value to the current table. -/
def assignTo (current : Current) (path : List String) (key : String) (value : Value)
    (entries : Entries) : Option Entries :=
  match current with
  | none => entries.assign path key value
  | some (above, last) =>
    Entries.edit .mentioned (fun _ entries => entries.assign path key value) (above ++ [last])
      .defined entries

/-- A statement, and the rest of the document. -/
def readStatement? (current : Current) (entries : Entries) :
    List Char → Option (Current × Entries × List Char)
  | '[' :: '[' :: s => do
    let (path, key, s) ← readPath? maxKeys (skipBlanks s)
    match skipBlanks s with
    | ']' :: ']' :: s => some (some (path, key), ← entries.append path key, ← nextLine? s)
    | _ => none
  | '[' :: s => do
    let (path, key, s) ← readPath? maxKeys (skipBlanks s)
    match skipBlanks s with
    | ']' :: s => some (some (path, key), ← entries.define path key, ← nextLine? s)
    | _ => none
  | s => do
    let (path, key, s) ← readPath? maxKeys s
    match skipBlanks s with
    | '=' :: s =>
      let (value, s) ← readValue? maxNesting (skipBlanks s)
      some (current, ← assignTo current path key value entries, ← nextLine? s)
    | _ => none

/-- All statements of a text, added to `entries`; `fuel` bounds their number. -/
def readStatements? : Nat → Current → Entries → List Char → Option Entries
  | 0, _, _, _ => none
  | fuel + 1, current, entries, s => do
    match ← skipLines? false s with
    | [] => some entries
    | s =>
      let (current, entries, s) ← readStatement? current entries s
      readStatements? fuel current entries s

/-- The table of a document. One byte order mark may stand at its start. -/
def document? (text : String) : Option Value :=
  let s := match text.toList with
    | '\ufeff' :: s => s
    | s => s
  (readStatements? (s.length + 1) none [] s).map fun entries => .table (finished entries)

end LineEndings.Toml

/-
Text for a reader that takes no orders meant for terminals.

Control characters, and the sequences that an escape character starts, tell a terminal what to do.
`Terminal.plain` drops them and keeps the other characters, tabs and line ends among them.

The text is read a character at a time, and `State` says what a character is part of. Characters that are
kept come in runs. A run starts with a character that is kept where it stands and goes on as if it stood
in plain text; meanwhile the state stands still, and after the run it counts again.
-/

namespace LineEndings.Text.Terminal

/-- What the next character of a text is part of. -/
inductive State where
  /-- Plain text. -/
  | ground
  /-- What follows an escape character. -/
  | escape
  /-- An escape sequence of more than one character. -/
  | escapeIntermediate
  /-- A control sequence, up to its final character. -/
  | sequence
  /-- The start of a device control string. -/
  | deviceEntry
  /-- The parameters of a device control string. -/
  | deviceParameters
  /-- What stands between the parameters of a device control string and the string. -/
  | deviceIntermediate
  /-- A string, up to its terminator. -/
  | string
  /-- A command to the operating system, which a bell may end. -/
  | command
  deriving Repr, DecidableEq

namespace State

/-- Whether a character ends a string by one of the bytes that encode it. -/
def hasTerminator (c : Char) : Bool :=
  '\x7f' < c && (String.utf8EncodeChar c).contains 0x9c

/-- The state after a character. Cancelling ends everything, and an escape character always counts. -/
def next (state : State) (c : Char) : State :=
  if c = '\x18' ∨ c = '\x1a' then ground
  else if c = '\x1b' then escape
  else
    let isIntermediate : Bool := ' ' ≤ c && c ≤ '/'
    let isFrom (low : Char) : Bool := low ≤ c && c ≤ '~'
    match state with
    | ground => ground
    | escape =>
      if isIntermediate then escapeIntermediate
      else if c = '[' then sequence
      else if c = ']' then command
      else if c = 'P' then deviceEntry
      else if c = 'X' ∨ c = '^' ∨ c = '_' then string
      else if isFrom '0' then ground
      else escape
    | escapeIntermediate => if isFrom '0' then ground else escapeIntermediate
    | sequence => if isFrom '@' then ground else sequence
    | deviceEntry =>
      if isIntermediate then deviceIntermediate
      else if isFrom '@' then string
      else if isFrom '0' then deviceParameters
      else deviceEntry
    | deviceParameters =>
      if isIntermediate then deviceIntermediate
      else if isFrom '<' then string
      else deviceParameters
    | deviceIntermediate => if isFrom '0' then string else deviceIntermediate
    | string => if hasTerminator c then ground else string
    | command => if c = '\x07' then ground else command

/-- The state after a character of a run that is kept, or after the character that ends the run. -/
def nextInRun (state : State) (c : Char) : State :=
  if c = '\x18' ∨ c = '\x1a' ∨ '\x7f' < c then ground
  else if c = '\x1b' then escape
  else state

/-- Whether a character of plain text is kept. -/
def keepsPlain (c : Char) : Bool :=
  c == '\t' || c == '\n' || c == '\x0c' || c == '\r' || (' ' ≤ c && c != '\x7f')

/-- Whether a character starts a run that is kept. Tabs and line ends count also inside of sequences, but
not inside of strings. -/
def keeps (state : State) (c : Char) : Bool :=
  match state with
  | ground => keepsPlain c
  | escape | escapeIntermediate | sequence => c < ' ' && keepsPlain c
  | _ => false

end State

/-- What is kept of a text; `inRun` says that the character before it is. -/
def kept (inRun : Bool) (state : State) : List Char → List Char
  | [] => []
  | c :: s =>
    if inRun && State.keepsPlain c then c :: kept true (state.nextInRun c) s
    else
      let state := if inRun then state.nextInRun c else state
      if state.keeps c then c :: kept true (state.next c) s
      else kept false (state.next c) s

/-- A text without control characters and control sequences. -/
def plain (text : String) : String :=
  String.ofList (kept false .ground text.toList)

end LineEndings.Text.Terminal

/-
The line breaks of a text.

A text is read as a sequence of marks: its line breaks, and the characters between them. `\r\n` is one
break, a `\r` or a `\n` that is not part of one is a break of its own. `textOf` writes marks as
text again (`textOf_marks`). Counting, converting and checking are all said in terms of marks.
-/
import LineEndings.Ending.Kind

namespace LineEndings

/-- A line break as it stands in a text. -/
inductive Break where
  | lf
  | crlf
  | cr
  deriving Repr, DecidableEq

/-- A line break or a character that is not part of one. -/
inductive Mark where
  | lineBreak (b : Break)
  | char (c : Char)
  deriving Repr, DecidableEq

/-- The characters of a line break. -/
def Break.characters : Break → List Char
  | .lf => ['\n']
  | .crlf => ['\r', '\n']
  | .cr => ['\r']

/-- The break that a kind of line ending asks for. -/
def Ending.toBreak : Ending → Break
  | .lf => .lf
  | .crlf => .crlf

/-- The characters of a mark. -/
def Mark.characters : Mark → List Char
  | .lineBreak b => b.characters
  | .char c => [c]

/-- The marks of a text that starts with `c`, given those of the rest. -/
def consMark (c : Char) (rest : List Mark) : List Mark :=
  if c = '\r' then
    match rest with
    | .lineBreak .lf :: rest => .lineBreak .crlf :: rest
    | rest => .lineBreak .cr :: rest
  else if c = '\n' then .lineBreak .lf :: rest
  else .char c :: rest

/-- The marks of a text. -/
def marks (text : List Char) : List Mark :=
  text.foldr consMark []

/-- The text of a sequence of marks. -/
def textOf (ms : List Mark) : List Char :=
  ms.flatMap Mark.characters

/-- The line breaks of a text, in order. -/
def breaks (text : List Char) : List Break :=
  (marks text).filterMap fun
    | .lineBreak b => some b
    | .char _ => none

/-- Reading a text as marks loses nothing. -/
theorem textOf_marks (text : List Char) : textOf (marks text) = text := by
  induction text with
  | nil => rfl
  | cons c text ih =>
    show textOf (consMark c (marks text)) = c :: text
    generalize marks text = ms at ih
    subst ih
    unfold consMark
    by_cases hr : c = '\r'
    · rw [if_pos hr, hr]
      split <;> rfl
    · rw [if_neg hr]
      by_cases hn : c = '\n'
      · rw [if_pos hn, hn]
        rfl
      · rw [if_neg hn]
        rfl

end LineEndings

/-
Rewriting the line breaks of a text.

`convert target` writes every line break as `target` and leaves all else; `terminate` adds one line
ending to a text that needs one at its end. An empty text needs none.
-/
import LineEndings.Ending.Breaks

namespace LineEndings

/-- The mark with its line break, if it is one, of the kind `target`. -/
def Mark.withEnding (target : Ending) : Mark → Mark
  | .lineBreak _ => .lineBreak target.toBreak
  | .char c => .char c

/-- The text with every line break of the kind `target`. -/
def convert (target : Ending) (text : List Char) : List Char :=
  textOf ((marks text).map (Mark.withEnding target))

/-- Whether a text is empty or ends with `\n`. -/
def isTerminated (text : List Char) : Bool :=
  text.isEmpty || text.getLast? == some '\n'

/-- The text with a line ending at its end. -/
def terminate (ending : Ending) (text : List Char) : List Char :=
  if isTerminated text then text else text ++ ending.characters

end LineEndings

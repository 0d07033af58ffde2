/-
Kinds of line ending.
-/
import LineEndings.Text.Blank

namespace LineEndings

/-- A line ending that a file can be asked to have. -/
inductive Ending where
  | lf
  | crlf
  deriving Repr, DecidableEq

namespace Ending

/-- The name of a kind. -/
def name : Ending → String
  | .lf => "lf"
  | .crlf => "crlf"

/-- The kind with a name, in any case of ASCII letters and with blanks around it. -/
def ofName? (text : String) : Option Ending :=
  match String.ofList ((Text.trim text.toList).map Char.toLower) with
  | "lf" => some .lf
  | "crlf" => some .crlf
  | _ => none

/-- The characters that end a line. -/
def characters : Ending → List Char
  | .lf => ['\n']
  | .crlf => ['\r', '\n']

end Ending

end LineEndings

/-
What one properties file says about one path.

A file is a sequence of lines. A header `[patterns]` opens a section, which applies to the path if one
of its patterns matches; the lines before the first header are global and always apply. Of the
assignments to a property that apply and are understood, the last one counts. `root = true` is only
heard among the global lines. All other lines are void, so reading never fails.

`readLine` says what a line is, apart from its place; `Source.step` says what a line changes.
-/
import LineEndings.Text.Split
import LineEndings.Glob.PatternSet
import LineEndings.Property.Schema
import Std.Data.TreeMap

namespace LineEndings.Property

/-! ### Lines -/

/-- What a line says, apart from its place in the file. -/
inductive Line where
  | void
  /-- `[text]`, trimmed. -/
  | header (text : String)
  /-- `key = value`, trimmed and in lower case. -/
  | assignment (key value : String)
  deriving Repr, DecidableEq

/-- The text between the brackets of a trimmed line that is a header. -/
def headerText? : List Char → Option (List Char)
  | '[' :: s => if s.getLast? = some ']' then some s.dropLast else none
  | _ => none

/-- An assignment is cut at its first `=`, and its key must not be blank. -/
def readAssignment (line : List Char) : Line :=
  match line.dropWhile (· != '=') with
  | [] => .void
  | _ :: value =>
    let key := Text.trim (line.takeWhile (· != '='))
    if key.isEmpty then .void
    else
      .assignment (String.ofList (Text.lowerCase key))
        (String.ofList (Text.lowerCase (Text.trim value)))

/-- Read one line. -/
def readLine (raw : List Char) : Line :=
  let line := Text.trim raw
  match line.head? with
  | none | some '#' | some ';' => .void
  | some _ =>
    match headerText? line with
    | some inner => .header (String.ofList (Text.trim inner))
    | none => readAssignment line

/-- A text without the byte order mark that may stand at its start. -/
def withoutMark : List Char → List Char
  | '\ufeff' :: text => text
  | text => text

/-- The lines of a file. -/
def readLines (contents : String) : List Line :=
  (Text.pieces '\n' (withoutMark contents.toList)).map readLine

/-! ### Sections and assignments -/

/-- An assignment that counts: its value, the header of its section unless it is global, and the
number of its line, from 1. -/
structure Assignment where
  value : String
  header? : Option String
  line : Nat
  deriving Repr, DecidableEq

/-- What a file contributes for a path: the root mark, and assignments by their properties. -/
structure Source where
  root : Bool
  assignments : Std.TreeMap String Assignment
  deriving Repr

/-- The section that a line stands in; there is none among the global lines. -/
structure Section where
  header : String
  applies : Bool
  deriving Repr, DecidableEq

/-- The section that a header opens, for a path. -/
def Section.ofHeader (path header : String) : Section :=
  ⟨header, (Glob.PatternSet.ofList (Glob.splitPatterns header)).matches path⟩

/-- Whether the lines of a section apply; global lines do. -/
def applies (current? : Option Section) : Bool :=
  current?.all (·.applies)

/-- What line number `number` changes, for a path. -/
def Source.step (schema : Schema) (path : String) (state : Option Section × Source)
    (line : Line × Nat) : Option Section × Source :=
  let (current?, source) := state
  match line with
  | (.void, _) => state
  | (.header text, _) => (some (.ofHeader path text), source)
  | (.assignment key value, number) =>
    -- The mark is no property, so it counts for nothing in a section.
    if key = "root" then
      if current?.isNone then (none, { source with root := value == "true" }) else state
    else if applies current? && schema.recognizes key value then
      let assignment := ⟨value, current?.map (·.header), number⟩
      (current?, { source with assignments := source.assignments.insert key assignment })
    else state

/-- What the text of a file says about a path, which is relative to the directory of the file. -/
def Source.read (schema : Schema) (path contents : String) : Source :=
  ((readLines contents).zipIdx 1 |>.foldl (Source.step schema path) (none, ⟨false, ∅⟩)).2

end LineEndings.Property

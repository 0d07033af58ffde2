/-
Checking a file.

`Workspace.expectation` says which line ending a file should have and who says so. A report compares that
with the line breaks of the file. Files that look binary or are not text get no report.
-/
import LineEndings.Ending.Convert
import LineEndings.Ending.Counts
import LineEndings.Failure
import LineEndings.Property.Cascade
import LineEndings.Tree.Basic
import LineEndings.Workspace.Basic

namespace LineEndings

/-- Which line ending a file should have, who says so, and whether the file should end with one. -/
structure Expectation where
  decision : Decision
  /-- The properties file that sets the line ending. -/
  propertiesFile? : Option Path
  /-- What the override that matches the file is called. -/
  overrideDetail? : Option String
  insertFinalNewline? : Option Bool
  deriving Repr, DecidableEq

/-- What there is to say about a text file. -/
structure Report where
  path : Path
  counts : Counts
  expectation : Expectation
  needsConversion : Bool
  lacksFinalNewline : Bool
  deriving Repr, DecidableEq

/-- Whether there is nothing to mend. -/
def Report.isClean (report : Report) : Bool :=
  !report.needsConversion && !report.lacksFinalNewline

/-- The content of a file as far as line endings are concerned. -/
inductive Content where
  | text (s : String)
  | binary
  | notText
  deriving Repr, DecidableEq

/-- How many bytes are looked at to tell whether a file is binary. -/
def sniffLength : Nat := 8192

/-- A zero byte near the start makes a file binary. -/
def Content.ofBytes (bytes : ByteArray) : Content :=
  if (bytes.extract 0 sniffLength).data.contains 0 then .binary
  else
    match String.fromUTF8? bytes with
    | some s => .text s
    | none => .notText

/-- The content of the file at a path. -/
def Tree.content (tree : Tree) (path : Path) : Except Failure Content :=
  match tree.read path with
  | .error fault => .error (.fileRead path fault)
  | .ok bytes => .ok (.ofBytes bytes)

namespace Workspace

/-- The resolver for the properties files of a tree. -/
def resolver (tree : Tree) : Property.Resolver :=
  { files := tree.files, schema := .lineEndings }

/-- The properties that apply to a file, if they are respected. -/
def properties (workspace : Workspace) (tree : Tree) (path : Path) : Property.Resolution :=
  if workspace.settings.respectProperties then (resolver tree).resolve (workspace.absolute path)
  else ⟨∅, []⟩

/-- What is expected of a file. -/
def expectation (workspace : Workspace) (tree : Tree) (path : Path) : Expectation :=
  let resolution := workspace.properties tree path
  let endOfLine? := resolution.properties[Property.endOfLine]?
  let override? := CompiledOverride.find? workspace.overrides (workspace.label path)
  { decision :=
      decideEnding workspace.settings.expected (endOfLine?.bind (Ending.ofName? ·.value))
        workspace.settings.respectProperties (override?.map (·.ending))
    propertiesFile? := endOfLine?.map (·.source)
    overrideDetail? := override?.map (·.detail)
    insertFinalNewline? := (resolution.value? Property.insertFinalNewline).map (· == "true") }

/-- The report on a text. -/
def report (workspace : Workspace) (tree : Tree) (path : Path) (text : String) : Report :=
  let counts := Counts.ofText text.toList
  let expectation := workspace.expectation tree path
  let finalNewlineOnly := workspace.settings.finalNewlineOnly
  { path := path
    counts := counts
    expectation := expectation
    needsConversion :=
      !finalNewlineOnly && expectation.decision.expected.ending?.any (!counts.isUniform ·)
    lacksFinalNewline :=
      (finalNewlineOnly || expectation.insertFinalNewline? == some true)
        && !isTerminated text.toList }

/-- Check a file; nothing is reported on a file that is not text. -/
def check (workspace : Workspace) (tree : Tree) (path : Path) : Except Failure (Option Report) :=
  match tree.content path with
  | .error failure => .error failure
  | .ok (.text text) => .ok (some (workspace.report tree path text))
  | .ok _ => .ok none

end Workspace

end LineEndings

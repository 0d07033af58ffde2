/-
Mending a file.

A file that needs conversion gets the line ending that is expected. A final line ending that is missing
is added in the same kind, or in the kind that is dominant in the file when nothing else is converted.
-/
import LineEndings.Workspace.Check

namespace LineEndings

/-- What mending has done to a file. -/
inductive Outcome where
  /-- The file has been written, for the sake of this line ending. -/
  | changed (target : Ending)
  | unchanged
  /-- The file is not text. -/
  | skipped
  deriving Repr, DecidableEq

/-- The line ending to write: the expected one, or else the dominant one. -/
def Report.target (report : Report) : Ending :=
  (report.expectation.decision.expected.ending?.or report.counts.dominant?).getD .lf

/-- The mended text. -/
def Report.mend (report : Report) (text : List Char) : List Char :=
  let converted := if report.needsConversion then convert report.target text else text
  if report.lacksFinalNewline then
    let ending :=
      if report.needsConversion then report.target else report.counts.dominant?.getD report.target
    terminate ending converted
  else converted

namespace Workspace

/-- Mend a text file. -/
def fixText (workspace : Workspace) (tree : Tree) (path : Path) (text : String) :
    Except Failure (Outcome × Tree) :=
  let report := workspace.report tree path text
  let mended := String.ofList (report.mend text.toList)
  -- Nothing is written where there is nothing to write.
  if report.isClean || mended == text then .ok (.unchanged, tree)
  else
    match tree.write path mended.toUTF8 with
    | .error fault => .error (.fileWrite path fault)
    | .ok tree => .ok (.changed report.target, tree)

/-- Mend a file, and give the tree with it. -/
def fix (workspace : Workspace) (tree : Tree) (path : Path) : Except Failure (Outcome × Tree) :=
  match tree.content path with
  | .error failure => .error failure
  | .ok (.text text) => workspace.fixText tree path text
  | .ok _ => .ok (.skipped, tree)

/-- Mend files one after another, going on where one cannot be mended: what has been done to each, and the
tree that is left. -/
def fixAll (workspace : Workspace) (tree : Tree) :
    List Path → List (Except Failure Outcome) × Tree
  | [] => ([], tree)
  | path :: paths =>
    match workspace.fix tree path with
    | .error failure =>
      let (results, tree) := workspace.fixAll tree paths
      (.error failure :: results, tree)
    | .ok (outcome, tree) =>
      let (results, tree) := workspace.fixAll tree paths
      (.ok outcome :: results, tree)

end Workspace

end LineEndings

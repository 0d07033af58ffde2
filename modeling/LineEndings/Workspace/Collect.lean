/-
From paths to the files to work on.

A path to a file stands for that file, a path to a directory for the files below it, pruned directories
left out; files to leave alone are dropped, and each file is listed once, where it comes first.
-/
import LineEndings.Failure
import LineEndings.Tree.Walk
import LineEndings.Workspace.Basic

namespace LineEndings.Workspace

/-- A list with only the first of equal members. -/
def firstOccurrences {α : Type} [DecidableEq α] : List α → List α
  | [] => []
  | a :: l => a :: (firstOccurrences l).filter (· ≠ a)

/-- The files below a directory that are not left alone. -/
def filesBelow (workspace : Workspace) (tree : Tree) (directory : Address) : List Path :=
  ((tree.filesBelow (fun address => workspace.prunes (.ofAddress address)) directory).map
    Path.ofAddress).filter (!workspace.isIgnored ·)

/-- The files that one path stands for. -/
def filesAt (workspace : Workspace) (tree : Tree) (path : Path) : Except Failure (List Path) :=
  let absolute := workspace.absolute path
  match tree.locate absolute with
  | .error _ => .error (.pathNotFound path)
  | .ok address =>
    match tree.item? address with
    | none => .error (.pathNotFound path)
    | some (.file _) => .ok (if workspace.isIgnored absolute then [] else [absolute])
    | some .directory => .ok (workspace.filesBelow tree address)

/-- The files that a list of paths stands for. -/
def collect (workspace : Workspace) (tree : Tree) (paths : List Path) : Except Failure (List Path) := do
  return firstOccurrences (← paths.mapM (workspace.filesAt tree)).flatten

end LineEndings.Workspace

/-
A workspace: the directory that files are worked on from, with the settings that hold there.

Patterns of the settings are matched against the label of a file, which is its path relative to the root
of the workspace, or its whole path when it lies outside. Labels do not depend on how a path was spelled.
-/
import LineEndings.Glob.PatternSet
import LineEndings.Path.Normal
import LineEndings.Settings.Overrides

namespace LineEndings

/-- The root in normal form, the settings, and their patterns compiled. -/
structure Workspace where
  root : Path
  settings : Settings
  excludes : Glob.PatternSet
  ignore : Glob.PatternSet
  overrides : List CompiledOverride
  deriving Repr

namespace Workspace

/-- What lies inside directories of these names is never worked on. -/
def defaultExcludes : List String :=
  ["\x7bnode_modules,.git,dist,build,out\x7d/**", "**/\x7bnode_modules,.git,dist,build,out\x7d/**"]

/-- The workspace of a directory. -/
def ofSettings (root : Path) (settings : Settings) : Workspace where
  root := root.normalize
  settings := settings
  excludes := .ofList defaultExcludes
  ignore := .ofList settings.ignore
  overrides := settings.compileOverrides

/-- A path as seen from the root, in normal form. -/
def absolute (workspace : Workspace) (path : Path) : Path :=
  if path.isAbsolute then path.normalize else (workspace.root.join path).normalize

/-- The label of a path: what follows the root, or the whole path outside of it, with `/` for every
backslash. Names are text, so the backslashes are all that a label loses. -/
def label (workspace : Workspace) (path : Path) : String :=
  let absolute := workspace.absolute path
  -- The root itself has the empty label.
  let relative := match absolute.after? workspace.root with
    | some components => Path.ofComponents components
    | none => absolute
  String.ofList (Glob.slashed relative.text.toList)

/-- Whether a label is one to leave alone. -/
def ignoresLabel (workspace : Workspace) (label : String) : Bool :=
  workspace.excludes.matches label || workspace.ignore.matches label

/-- Whether a file is left alone. -/
def isIgnored (workspace : Workspace) (path : Path) : Bool :=
  workspace.ignoresLabel (workspace.label path)

/-- Whether a directory is not descended into. -/
def prunes (workspace : Workspace) (directory : Path) : Bool :=
  workspace.ignoresLabel (workspace.label directory ++ "/")

end Workspace

end LineEndings

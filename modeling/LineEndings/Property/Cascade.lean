/-
The cascade: which properties files speak about a path, and which of them wins.

Every directory above the normal form of the target may hold a properties file. They are read nearest
first, up to the first whose global lines say `root = true`; one that cannot be read is passed over.
For each property the nearest file that assigns it wins, so the files are united farthest first, nearer
ones overwriting (`Resolver.resolve`). Resolving never fails.
-/
import LineEndings.Files
import LineEndings.Path.Normal
import LineEndings.Property.Source

namespace LineEndings.Property

/-- The usual name of a properties file. -/
def fileName : String := ".editorconfig"

/-- A file system, the properties to look for, and the name of the files they are looked for in. -/
structure Resolver where
  files : Files
  schema : Schema
  fileName : String := Property.fileName

/-- A properties file with what it says about the target. -/
structure LoadedSource where
  path : Path
  source : Source
  deriving Repr

/-- The winning assignment of a property, and the file it stands in. -/
structure Resolved where
  value : String
  source : Path
  header? : Option String
  line : Nat
  deriving Repr, DecidableEq

/-- The properties that a file assigns. -/
def LoadedSource.properties (loaded : LoadedSource) : Std.TreeMap String Resolved :=
  loaded.source.assignments.map fun _ assignment =>
    ⟨assignment.value, loaded.path, assignment.header?, assignment.line⟩

/-- The properties of a target, and the files that took part, farthest first. -/
structure Resolution where
  properties : Std.TreeMap String Resolved
  sources : List Path
  deriving Repr

/-- The properties that files give together which stand in order, nearest first. -/
def Resolution.ofSources (nearestFirst : List LoadedSource) : Resolution :=
  let farthestFirst := nearestFirst.reverse
  ⟨farthestFirst.foldl (· ∪ ·.properties) ∅, farthestFirst.map (·.path)⟩

/-- The value of a property. -/
def Resolution.value? (resolution : Resolution) (name : String) : Option String :=
  resolution.properties[name]?.map (·.value)

/-- The target relative to the directory of a properties file, if it lies below it. -/
def labelFrom? (file target : Path) : Option String :=
  file.parent?.bind fun dir => (target.after? dir).bind Path.label?

namespace Resolver

/-- The properties files of the directories above the target, nearest first. -/
def discover (resolver : Resolver) (target : Path) : List Path :=
  match target.normalize.parent? with
  | none => []
  | some dir => (dir.ancestors.map (·.join ⟨resolver.fileName⟩)).filter resolver.files.isFile

/-- Read the files of a list, up to the first with the root mark, for a target in normal form. -/
def loadAll (resolver : Resolver) (target : Path) : List Path → List LoadedSource
  | [] => []
  | path :: paths =>
    match resolver.files.read path, labelFrom? path target with
    | .ok contents, some label =>
      let source := Source.read resolver.schema label contents
      ⟨path, source⟩ :: if source.root then [] else loadAll resolver target paths
    | _, _ => loadAll resolver target paths

/-- The properties files that bear on the target, nearest first. -/
def load (resolver : Resolver) (target : Path) : List LoadedSource :=
  loadAll resolver target.normalize (resolver.discover target)

/-- The files of a list that cannot be read, up to the first with the root mark. -/
def faultsAll (resolver : Resolver) (target : Path) : List Path → List (Path × Fault)
  | [] => []
  | path :: paths =>
    match resolver.files.read path with
    | .error fault => (path, fault) :: faultsAll resolver target paths
    | .ok contents =>
      match labelFrom? path target with
      | some label =>
        if (Source.read resolver.schema label contents).root then []
        else faultsAll resolver target paths
      | none => faultsAll resolver target paths

/-- The properties files that would bear on the target but cannot be read, nearest first. -/
def faults (resolver : Resolver) (target : Path) : List (Path × Fault) :=
  faultsAll resolver target.normalize (resolver.discover target)

/-- The properties of a target. -/
def resolve (resolver : Resolver) (target : Path) : Resolution :=
  .ofSources (resolver.load target)

end Resolver

end LineEndings.Property

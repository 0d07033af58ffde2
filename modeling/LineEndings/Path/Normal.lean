/-
The normal form of a path, and paths seen from a directory.

`Path.normalize` drops `.`, lets `..` take the name before it, and keeps a `..` only where it leads a
relative path; above the top there is nothing, so there it has no effect. No directory is looked at:
the result says what the text says. The normal form of an absolute path is an address spelled out.
-/
import LineEndings.Path.Basic

namespace LineEndings

/-- The names on the way from the top to a file or directory. -/
abbrev Address := List String

namespace Path

/-- One more component on a stack of components in normal form, last one first. -/
def pushNormal (stack : List Component) : Component → List Component
  | .current => stack
  | .parent =>
    match stack with
    | .name _ :: rest => rest
    | .root :: _ => stack
    | _ => .parent :: stack
  | component => component :: stack

/-- The components of the normal form. -/
def normalComponents (components : List Component) : List Component :=
  (components.foldl pushNormal []).reverse

/-- The normal form of a path. -/
def normalize (p : Path) : Path :=
  ofComponents (normalComponents p.components)

/-- What is left of the components of `p` after those of `dir`, if they start with those. -/
def after? (p dir : Path) : Option (List Component) :=
  dir.components.isPrefixOf? p.components

/-- The names among the components, with a slash between neighbours; nothing if there is none. -/
def label? (components : List Component) : Option String :=
  match components.filterMap fun | .name s => some s.toList | _ => none with
  | [] => none
  | names => some (String.ofList (Text.joined '/' names))

/-! ### Addresses -/

/-- The absolute path of an address. -/
def ofAddress (address : Address) : Path :=
  ofComponents (.root :: address.map .name)

/-- The address that the normal form of an absolute path spells out. -/
def toAddress (path : Path) : Address :=
  path.normalize.components.filterMap fun
    | .name name => some name
    | _ => none

/-- Whether a text can be the name of a file or directory. -/
def IsName (s : String) : Prop :=
  s ≠ "" ∧ s ≠ "." ∧ s ≠ ".." ∧ '/' ∉ s.toList

instance (s : String) : Decidable (IsName s) :=
  inferInstanceAs (Decidable (_ ∧ _ ∧ _ ∧ _))

end Path

end LineEndings

/-
The properties that are understood, and the values that are legal for them.

Assignments to other properties, and assignments of other values, count as if they were not there. Of
two keys with the same name the first decides.
-/
import LineEndings.Text.Blank
import LineEndings.Text.LowerCase

namespace LineEndings.Property

/-- The property that names a line ending. -/
def endOfLine : String := "end_of_line"

/-- The property that asks for a line ending at the end of a file. -/
def insertFinalNewline : String := "insert_final_newline"

/-- A property by its lower-case name, with the values it may have; with no list, any value but the
empty one. -/
structure Key where
  name : String
  legal? : Option (List String)
  deriving Repr, DecidableEq

/-- A property with any value. -/
def Key.any (name : String) : Key :=
  ⟨Text.lowered (Text.trimmed name), none⟩

/-- A property with a value of a list. -/
def Key.oneOf (name : String) (values : List String) : Key :=
  ⟨Text.lowered (Text.trimmed name), some (values.map Text.lowered)⟩

/-- Whether a lower-case value is legal. -/
def Key.accepts (key : Key) (value : String) : Bool :=
  match key.legal? with
  | some values => values.contains value
  | none => !value.isEmpty

/-- The properties that are understood, in order. -/
structure Schema where
  keys : List Key
  deriving Repr, DecidableEq

/-- The key with a name. -/
def Schema.get? (schema : Schema) (name : String) : Option Key :=
  schema.keys.find? (·.name == name)

/-- Whether an assignment, in lower case, is understood. -/
def Schema.recognizes (schema : Schema) (name value : String) : Bool :=
  (schema.get? name).any (·.accepts value)

/-- The two properties that bear on line endings. -/
def Schema.lineEndings : Schema :=
  ⟨[.oneOf endOfLine ["lf", "crlf"], .oneOf insertFinalNewline ["true", "false"]]⟩

end LineEndings.Property

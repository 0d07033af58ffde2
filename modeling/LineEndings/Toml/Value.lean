/-
TOML values.

Numbers and points in time are kept as they were written: whoever asks for text or a boolean must be able
to tell them apart, and nobody computes with them. A value may hold a numeral that stands for no number;
`Value.isSound` says that it does not.
-/
import LineEndings.Toml.Numeral

namespace LineEndings.Toml

/-- A value of a TOML document. The entries of a table have distinct keys. -/
inductive Value where
  | text (s : String)
  | boolean (b : Bool)
  | number (numeral : Numeral)
  | dateTime (literal : String)
  | array (items : List Value)
  | table (entries : List (String × Value))
  deriving Repr, Inhabited

/-- The value at a key, if the value is a table and has the key. -/
def Value.get? (key : String) : Value → Option Value
  | .table entries => entries.lookup key
  | _ => none

mutual

/-- Whether every numeral in a value stands for a number. -/
def Value.isSound : Value → Bool
  | .number numeral => numeral.hasValue
  | .array items => allSound items
  | .table entries => allEntriesSound entries
  | _ => true

/-- Whether the values of a list are sound. -/
def allSound : List Value → Bool
  | [] => true
  | value :: values => value.isSound && allSound values

/-- Whether the values of the entries of a table are sound. -/
def allEntriesSound : List (String × Value) → Bool
  | [] => true
  | (_, value) :: entries => value.isSound && allEntriesSound entries

end

end LineEndings.Toml

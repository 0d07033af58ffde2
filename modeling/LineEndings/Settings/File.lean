/-
Settings files.

A settings file is a TOML document. Keys that are not known are passed over as long as their values are
sound, values of the wrong kind are errors. `SettingsFile.read` decodes a document and rejects an override
with a blank pattern, which could match nothing.
-/
import LineEndings.Text.Blank
import LineEndings.Ending.Expected
import LineEndings.Failure
import LineEndings.Toml.Document

namespace LineEndings

/-- A line ending for the files that a pattern matches. -/
structure Override where
  pattern : String
  ending : Ending
  description? : Option String
  deriving Repr, DecidableEq

/-- What a settings file says; what it leaves open, another file may say. -/
structure SettingsFile where
  root : Bool
  expected? : Option Expected
  respectProperties? : Option Bool
  finalNewlineOnly? : Option Bool
  ignore : List String
  overrides : List Override
  deriving Repr, DecidableEq

namespace SettingsFile

/-! ### Decoding values -/

/-- A decoded value; `none` is a value of the wrong kind. -/
abbrev Decoded := Option

/-- A text. -/
def text? : Toml.Value → Decoded String
  | .text s => some s
  | _ => none

/-- A boolean. -/
def boolean? : Toml.Value → Decoded Bool
  | .boolean b => some b
  | _ => none

/-- One of a list of names: a text, or a table with the name as its only key and nothing in it. -/
def name? : Toml.Value → Decoded String
  | .text s => some s
  | .table [(name, .table [])] => some name
  | .table [(name, .array [])] => some name
  | _ => none

/-- A line ending by name, in either case. -/
def ending? (value : Toml.Value) : Decoded Ending :=
  match name? value with
  | some "lf" | some "LF" => some .lf
  | some "crlf" | some "CRLF" => some .crlf
  | _ => none

/-- An expected line ending by name. -/
def expectedEnding? (value : Toml.Value) : Decoded Expected :=
  match name? value with
  | some "auto" => some .auto
  | _ => (ending? value).map .fixed

/-- All items of an array. -/
def items? {α : Type} (item : Toml.Value → Decoded α) : Toml.Value → Decoded (List α)
  | .array values => values.mapM item
  | _ => none

/-- The value at a key that may be missing. -/
def field? {α : Type} (value : Toml.Value) (key : String) (decode : Toml.Value → Decoded α) :
    Decoded (Option α) :=
  match value.get? key with
  | none => some none
  | some value => (decode value).map some

/-- Look at the values at keys that are not known: their numerals must stand for numbers. -/
def others? (value : Toml.Value) (known : List String) : Decoded Unit :=
  match value with
  | .table entries =>
    if entries.all fun (key, value) => known.contains key || value.isSound then some () else none
  | _ => some ()

/-- An override: a table, or an array with its fields in order, what comes after them not looked at. -/
def override? : Toml.Value → Decoded Override
  | .array (pattern :: ending :: description :: _) => do
    some ⟨← text? pattern, ← ending? ending, some (← text? description)⟩
  | .table entries => do
    let table := Toml.Value.table entries
    others? table ["pattern", "eol", "description"]
    some ⟨← (← field? table "pattern" text?), ← (← field? table "eol" ending?),
      ← field? table "description" text?⟩
  | _ => none

/-- A settings file from its document. -/
def ofDocument? (document : Toml.Value) : Decoded SettingsFile := do
  others? document ["root", "expected-eol", "respect-editorconfig", "final-newline-only", "ignore",
    "overrides"]
  some
    { root := (← field? document "root" boolean?).getD false
      expected? := ← field? document "expected-eol" expectedEnding?
      respectProperties? := ← field? document "respect-editorconfig" boolean?
      finalNewlineOnly? := ← field? document "final-newline-only" boolean?
      ignore := (← field? document "ignore" (items? text?)).getD []
      overrides := (← field? document "overrides" (items? override?)).getD [] }

/-! ### Reading -/

/-- The number of the first override with a blank pattern, from 1. -/
def invalidOverride? (file : SettingsFile) : Option Nat :=
  (file.overrides.findIdx? fun override => Text.isAllBlank override.pattern).map (· + 1)

/-- Read the text of the settings file at `path`. -/
def read (path : Path) (contents : String) : Except Failure SettingsFile :=
  match (Toml.document? contents).bind ofDocument? with
  | none => .error (.settingsParse path)
  | some file =>
    match file.invalidOverride? with
    | some index => .error (.invalidOverride index)
    | none => .ok file

end SettingsFile

end LineEndings

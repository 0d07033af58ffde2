/-
Overrides, ready for matching.
-/
import LineEndings.Glob.Pattern
import LineEndings.Settings.Merge

namespace LineEndings

/-- An override with its pattern compiled; a description is trimmed, and not blank. -/
structure CompiledOverride where
  pattern : Glob.Pattern
  ending : Ending
  description? : Option String
  source : Path
  deriving Repr

namespace CompiledOverride

/-- Compile an override. -/
def ofOverride (entry : SourcedOverride) : CompiledOverride where
  pattern := .compile entry.override.pattern
  ending := entry.override.ending
  description? := (entry.override.description?.map Text.trimmed).filter (!·.isEmpty)
  source := entry.source

/-- What an override is called in reports: its description, or else its pattern. -/
def detail (entry : CompiledOverride) : String :=
  entry.description?.getD entry.pattern.raw

/-- The first override that matches a path. -/
def find? (entries : List CompiledOverride) (path : String) : Option CompiledOverride :=
  entries.find? (·.pattern.matches path)

end CompiledOverride

/-- The overrides of effective settings, compiled, in order. -/
def Settings.compileOverrides (settings : Settings) : List CompiledOverride :=
  settings.overrides.map .ofOverride

end LineEndings

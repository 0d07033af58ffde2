/-
The effective settings.

Of several settings files, the nearest that sets a single value decides it. Lists are put one after the
other, nearest file first, so that of the overrides that match a path the nearest one is found first.
-/
import LineEndings.Settings.Discovery

namespace LineEndings

/-- An override, and the settings file it stands in. -/
structure SourcedOverride where
  override : Override
  source : Path
  deriving Repr, DecidableEq

/-- Effective settings. -/
structure Settings where
  expected : Expected := .auto
  respectProperties : Bool := true
  finalNewlineOnly : Bool := false
  ignore : List String := []
  overrides : List SourcedOverride := []
  deriving Repr, DecidableEq

/-- The effective settings of files in the order nearest first. -/
def Settings.merge (loaded : List LoadedSettings) : Settings where
  expected := (loaded.findSome? (·.file.expected?)).getD .auto
  respectProperties := (loaded.findSome? (·.file.respectProperties?)).getD true
  finalNewlineOnly := (loaded.findSome? (·.file.finalNewlineOnly?)).getD false
  ignore := (loaded.flatMap fun entry => entry.file.ignore.map Text.trimmed).filter (!·.isEmpty)
  overrides := loaded.flatMap fun entry => entry.file.overrides.map (⟨·, entry.path⟩)

end LineEndings

/-
Which line ending a file is expected to have, and who says so.

A properties file, where it is respected, goes before an override, an override before the settings,
and the settings may leave it open (`auto`).
-/
import LineEndings.Ending.Kind

namespace LineEndings

/-- An expected line ending; `auto` expects none in particular. -/
inductive Expected where
  | auto
  | fixed (ending : Ending)
  deriving Repr, DecidableEq

/-- The line ending that is expected, if any. -/
def Expected.ending? : Expected → Option Ending
  | .auto => none
  | .fixed ending => some ending

/-- The name of an expectation. -/
def Expected.name : Expected → String
  | .auto => "auto"
  | .fixed ending => ending.name

/-- Who decided what is expected. -/
inductive Authority where
  | properties
  | override
  | settings
  | auto
  deriving Repr, DecidableEq

/-- The name of an authority. -/
def Authority.name : Authority → String
  | .properties => "editorconfig"
  | .override => "override"
  | .settings => "settings"
  | .auto => "auto"

/-- An expectation with its authority. -/
structure Decision where
  expected : Expected
  authority : Authority
  deriving Repr, DecidableEq

/-- Decide between the settings, the properties if `respected`, and an override. -/
def decideEnding (settings : Expected) (properties? : Option Ending) (respected : Bool)
    (override? : Option Ending) : Decision :=
  match respected, properties?, override?, settings with
  | true, some ending, _, _ => ⟨.fixed ending, .properties⟩
  | _, _, some ending, _ => ⟨.fixed ending, .override⟩
  | _, _, none, .fixed ending => ⟨.fixed ending, .settings⟩
  | _, _, none, .auto => ⟨.auto, .auto⟩

end LineEndings

/-
What can go wrong with settings and with the files that are worked on, and its wording.

That there is no home directory to look for settings in is not among it: here the home directory is always known,
and a run that has none does not get so far (`LineEndings.Main`).
-/
import LineEndings.Files

namespace LineEndings

/-- What can go wrong. -/
inductive Failure where
  | settingsRead (path : Path) (fault : Fault)
  | settingsParse (path : Path)
  /-- The pattern of an override, counted from 1, is blank. -/
  | invalidOverride (index : Nat)
  | fileRead (path : Path) (fault : Fault)
  | fileWrite (path : Path) (fault : Fault)
  | pathNotFound (path : Path)
  deriving Repr, DecidableEq

namespace Failure

/-- The wording of a failure. -/
def message : Failure → String
  | settingsRead path _ => "Failed to read settings file: " ++ path.text
  | settingsParse path => "Failed to parse settings file: " ++ path.text
  | invalidOverride index =>
    "Invalid override #" ++ toString index ++ ": pattern must not be empty"
  | fileRead path _ => "Failed to read file: " ++ path.text
  | fileWrite path _ => "Failed to write file: " ++ path.text
  | pathNotFound path => "Path not found: " ++ path.text

/-- The wording of what caused a failure, where that is told apart. -/
def cause? : Failure → Option String
  | settingsRead _ fault | fileRead _ fault | fileWrite _ fault => some fault.message
  | settingsParse _ => some "TOML parse error"
  | invalidOverride _ | pathNotFound _ => none

end Failure

end LineEndings

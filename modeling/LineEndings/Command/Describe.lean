/-
How resolved properties, reports and settings are put into words.
-/
import LineEndings.Command.Output
import LineEndings.Workspace.Check

namespace LineEndings.Command

/-! ### Properties -/

/-- A property with the place it was found at. -/
def propertyLine (resolution : Property.Resolution) (key : Property.Key) : String :=
  match resolution.properties[key.name]? with
  | none => "  " ++ key.name ++ ": unset"
  | some found =>
    let place := match found.header? with
      | none => ""
      | some header => " [" ++ header ++ "]"
    "  " ++ key.name ++ " = " ++ found.value ++ "  (" ++ found.source.text ++ ":"
      ++ toString found.line ++ place ++ ")"

/-- The properties of a path, and the files that were read for them. -/
def propertyLines (schema : Property.Schema) (target : Path) (resolution : Property.Resolution) :
    List String :=
  target.text :: schema.keys.map (propertyLine resolution)
    ++ resolution.sources.map fun source => "  # read " ++ source.text

/-! ### Reports -/

/-- The line endings that a file has. -/
def currentLabel (counts : Counts) : String :=
  if counts.isMixed then
    "mixed (lf: " ++ toString counts.lf ++ ", crlf: " ++ toString counts.crlf ++ ", cr: "
      ++ toString counts.cr ++ ")"
  else
    match counts.dominant? with
    | some ending => ending.name
    | none => "cr"

/-- Who says what is expected, and where. -/
def authorityLabel (expectation : Expectation) : String :=
  let authority := expectation.decision.authority
  let place? := match authority with
    | .override => expectation.overrideDetail?
    | .properties => expectation.propertiesFile?.map (·.text)
    | _ => none
  match place? with
  | none => authority.name
  | some place => authority.name ++ ": " ++ place

/-- What has to be mended in a file. -/
def problems (report : Report) : List String :=
  let conversion := if report.needsConversion then
      [currentLabel report.counts ++ " but expected " ++ report.expectation.decision.expected.name
        ++ " (" ++ authorityLabel report.expectation ++ ")"]
    else []
  let ending := if report.lacksFinalNewline then ["missing final newline"] else []
  conversion ++ ending

/-- A file with what has to be mended in it. -/
def reportLine (workspace : Workspace) (report : Report) : String :=
  workspace.label report.path ++ ": " ++ ", ".intercalate (problems report)

/-! ### Settings -/

/-- The text of a boolean. -/
def booleanText (b : Bool) : String :=
  if b then "true" else "false"

/-- An override, with its number from 1. -/
def overrideLines (entry : Override × Nat) : List String :=
  ("  Override " ++ toString entry.2 ++ ": " ++ entry.1.pattern ++ " -> " ++ entry.1.ending.name) ::
    (entry.1.description?.map ("    description: " ++ ·)).toList

/-- A settings file with all that it says. -/
def settingsFileLines (entry : LoadedSettings) : List String :=
  let file := entry.file
  ["# Source: " ++ entry.path.text, "# root: " ++ booleanText file.root]
    ++ (file.expected?.map fun e => "  expected-eol: " ++ e.name).toList
    ++ (file.respectProperties?.map fun b => "  respect-editorconfig: " ++ booleanText b).toList
    ++ (file.finalNewlineOnly?.map fun b => "  final-newline-only: " ++ booleanText b).toList
    ++ file.ignore.map ("  ignore: " ++ ·)
    ++ (file.overrides.zipIdx 1).flatMap overrideLines
    ++ [""]

/-- All settings files, if there are any. -/
def allSettingsLines (loaded : List LoadedSettings) : List String :=
  if loaded.isEmpty then ["No settings files found."]
  else "Settings files (in cascade order):" :: "" :: loaded.flatMap settingsFileLines

/-- The effective settings. -/
def effectiveLines (settings : Settings) : List String :=
  ["Effective settings:",
    "  expected-eol: " ++ settings.expected.name,
    "  respect-editorconfig: " ++ booleanText settings.respectProperties,
    "  final-newline-only: " ++ booleanText settings.finalNewlineOnly,
    "  ignore patterns: " ++ toString settings.ignore.length,
    "  overrides: " ++ toString settings.overrides.length]

/-- Settings files that hold no mistake. -/
def validLines (loaded : List LoadedSettings) : List String :=
  if loaded.isEmpty then ["No settings files found."]
  else "All settings files are valid:" :: loaded.map fun entry =>
    "  " ++ entry.path.text ++ " (" ++ toString entry.file.overrides.length ++ " overrides)"

end LineEndings.Command

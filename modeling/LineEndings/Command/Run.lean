/-
Running the program.

`run` takes a tree of files, the directory to work in, the home directory and the arguments, and gives
the exit status, the output, and the tree as the run leaves it. Only making a settings file and mending
change the tree.
-/
import LineEndings.Command.Arguments
import LineEndings.Command.Describe
import LineEndings.Settings.Template
import LineEndings.Workspace.Collect
import LineEndings.Workspace.Fix

namespace LineEndings.Command

/-- Where a run takes place. The home directory is known, whether it exists or not. -/
structure Place where
  tree : Tree
  directory : Path
  home : Path

/-- What a run leaves behind. -/
structure Result where
  exit : Nat
  output : Output
  tree : Tree

/-- The status for success, or for none. -/
def exitStatus (success : Bool) : Nat :=
  if success then 0 else 1

/-- A run that fails, with what could not be done. -/
def failed (place : Place) (output : Output) (message : String) (failure : Failure) : Result :=
  ⟨1, output ++ .ofErrors (failureLines message failure), place.tree⟩

/-! ### What shows when asked to say more -/

/-- The properties files that bear on a path and cannot be read. -/
def skippedSources (tree : Tree) (target : Path) : List String :=
  ((Workspace.resolver tree).faults target).map fun (path, fault) =>
    debugRecord "editorconfig::cascade" ("Skipping " ++ path.text ++ ": " ++ fault.message)

/-- The settings files that a search has read. -/
def loadedFiles (search : Settings.Search) : List String :=
  let record (origin : String) (entry : LoadedSettings) : String :=
    debugRecord "config::cascade" (origin ++ entry.path.text)
  search.loaded.map (record "Loaded settings from ")
    ++ (search.user?.map (record "Loaded user settings from ")).toList

/-- What there is to say about reading a file to check it. -/
def skippedContent (workspace : Workspace) (tree : Tree) (path : Path) : List String :=
  match tree.content path with
  | .error _ => []
  | .ok .binary => [debugRecord "workspace::process" ("Skipping binary file " ++ path.text)]
  | .ok .notText => [debugRecord "workspace::process" ("Skipping non-UTF-8 file " ++ path.text)]
  | .ok (.text _) =>
    if workspace.settings.respectProperties then skippedSources tree (workspace.absolute path) else []

/-- Records show when the program is asked to say more. -/
def whenVerbose (request : Request) (records : List String) : Output :=
  if request.has .verbose then .ofRecords records else .empty

/-! ### Actions -/

/-- Make a settings file. -/
def createSettings (place : Place) (force : Bool) : Result :=
  let path := place.directory.join ⟨SettingsFile.fileName⟩
  if (place.tree.find? path).isSome && !force then
    ⟨1, .ofErrors (errorLines (SettingsFile.fileName ++ " already exists. Use --force to overwrite.") []),
      place.tree⟩
  else
    match place.tree.write path SettingsFile.template.toUTF8 with
    | .error fault =>
      ⟨1, .ofErrors (errorLines ("Failed to write " ++ SettingsFile.fileName) [fault.message]), place.tree⟩
    | .ok tree => ⟨0, .ofLines ["Created " ++ SettingsFile.fileName], tree⟩

/-- Show the properties of files. -/
def resolveFiles (place : Place) (request : Request) (files : List Path) : Result :=
  let resolver := Workspace.resolver place.tree
  let answer (file : Path) : Output :=
    let target := (place.directory.join file).normalize
    whenVerbose request (skippedSources place.tree target)
      ++ .ofLines (propertyLines resolver.schema target (resolver.resolve target))
  ⟨0, (files.map answer).foldl (· ++ ·) .empty, place.tree⟩

/-- Match paths against a pattern. -/
def matchPaths (place : Place) (pattern : String) (paths : List String) : Result :=
  let compiled := Glob.Pattern.compile pattern
  let line (path : String) : String :=
    (if compiled.matches path then "match" else "no match") ++ "\t" ++ path
  ⟨exitStatus (paths.any compiled.matches), .ofLines (paths.map line), place.tree⟩

/-- Search for the settings files of the working directory. -/
def searchSettings (place : Place) (request : Request) : Settings.Search × Output :=
  let home? := if request.has .noUserFile then none else some place.home
  -- The home directory may be given from the working directory.
  let files := place.tree.files.seenFrom place.directory
  let search := Settings.search files place.directory home?
  (search, whenVerbose request (loadedFiles search))

/-- The workspace of the working directory and the files that paths stand for; the working directory
itself stands in for no paths. -/
def openWorkspace (place : Place) (request : Request) (paths : List Path) :
    Except Result (Workspace × List Path × Output) :=
  let (search, output) := searchSettings place request
  match search.result with
  | .error failure => .error (failed place output "Failed to load settings" failure)
  | .ok loaded =>
    let workspace := Workspace.ofSettings place.directory (Settings.merge loaded)
    match workspace.collect place.tree (if paths.isEmpty then [⟨"."⟩] else paths) with
    | .error failure => .error (failed place output "Failed to collect files" failure)
    | .ok files =>
      let collected := debugRecord "workspace" ("Collected " ++ toString files.length ++ " files")
      .ok (workspace, files, output ++ whenVerbose request [collected])

/-- A warning about a file that could not be worked on. -/
def warning (failure : Failure) : Output :=
  .ofErrors ["Warning: " ++ failure.message]

/-- How many files have been checked, and how many of them need mending. -/
structure Tally where
  checked : Nat
  flagged : Nat
  output : Output

/-- Check one more file. -/
def Tally.check (workspace : Workspace) (tree : Tree) (request : Request) (tally : Tally)
    (path : Path) : Tally :=
  let tally := { tally with
    output := tally.output ++ whenVerbose request (skippedContent workspace tree path) }
  match workspace.check tree path with
  | .error failure => { tally with output := tally.output ++ warning failure }
  | .ok none => tally
  | .ok (some report) =>
    if report.isClean then { tally with checked := tally.checked + 1 }
    else
      { checked := tally.checked + 1
        flagged := tally.flagged + 1
        output := tally.output ++ .ofLines [reportLine workspace report] }

/-- Report the files that need mending. -/
def checkFiles (place : Place) (request : Request) (paths : List Path) : Result :=
  match openWorkspace place request paths with
  | .error result => result
  | .ok (workspace, files, output) =>
    let tally := files.foldl (Tally.check workspace place.tree request) ⟨0, 0, output⟩
    let summary := toString tally.flagged ++ " of " ++ toString tally.checked ++ " files need fixing."
    ⟨exitStatus (tally.flagged = 0), tally.output ++ .ofLines [summary], place.tree⟩

/-- How many files have been mended, how many could not be, and the tree so far. -/
structure Repair where
  fixed : Nat
  failed : Nat
  output : Output
  tree : Tree

/-- Mend one more file. -/
def Repair.fix (workspace : Workspace) (request : Request) (repair : Repair) (path : Path) : Repair :=
  let output := repair.output ++ whenVerbose request (skippedContent workspace repair.tree path)
  match workspace.fix repair.tree path with
  | .error failure =>
    { repair with failed := repair.failed + 1, output := output ++ warning failure }
  | .ok (.changed target, tree) =>
    let rewrote := debugRecord "workspace::process"
      ("Rewrote " ++ path.text ++ " with " ++ target.name ++ " line endings")
    { repair with
      fixed := repair.fixed + 1
      output := output ++ whenVerbose request [rewrote] ++ .ofLines ["fixed " ++ workspace.label path]
      tree := tree }
  | .ok _ => { repair with output := output }

/-- Mend files. -/
def fixFiles (place : Place) (request : Request) (paths : List Path) : Result :=
  match openWorkspace place request paths with
  | .error result => result
  | .ok (workspace, files, output) =>
    let repair := files.foldl (Repair.fix workspace request) ⟨0, 0, output, place.tree⟩
    let summary := "Fixed " ++ toString repair.fixed ++ " files."
    ⟨exitStatus (repair.failed = 0), repair.output ++ .ofLines [summary], repair.tree⟩

/-- Show the settings files and the effective settings. -/
def showSettings (place : Place) (request : Request) : Result :=
  let (search, output) := searchSettings place request
  match search.result with
  | .error failure => failed place output "Failed to discover settings" failure
  | .ok loaded =>
    let userFile := Settings.userFile place.home
    let user := if request.has .noUserFile then []
      else
        ["", "User settings path: " ++ userFile.text,
          if (place.tree.find? (place.directory.join userFile)).isSome then "  (exists)" else "  (not found)"]
    ⟨0, output ++ .ofLines (allSettingsLines loaded ++ effectiveLines (Settings.merge loaded) ++ user),
      place.tree⟩

/-- Look for mistakes in the settings files. -/
def validateSettings (place : Place) (request : Request) : Result :=
  let (search, output) := searchSettings place request
  match search.result with
  | .error failure =>
    ⟨1, output ++ .ofErrors ["Settings error: " ++ failure.message], place.tree⟩
  | .ok loaded => ⟨0, output ++ .ofLines (validLines loaded), place.tree⟩

/-! ### The program -/

/-- The name of the program, and its version. -/
def versionLine : String := "eolg 0.1.0"

/-- A reminder of the commands. -/
def helpLines : List String :=
  ["Check and fix line endings using .editorconfig cascades",
    "",
    "Usage: eolg [OPTIONS] [COMMAND]",
    "",
    "Commands:",
    "  resolve FILES...           properties that apply to files",
    "  match PATTERN PATHS...     test paths against a glob pattern",
    "  check [PATHS...]           report files with unexpected line endings",
    "  fix [PATHS...]             convert files to their expected line endings",
    "  config show | validate     settings files",
    "",
    "Options: --init, --force, -v or --verbose, --no-user-config, -h or --help, -V or --version"]

/-- Do what a request asks for. -/
def perform (place : Place) (request : Request) : Result :=
  -- A settings file that is asked for is all that is made, whatever else is asked.
  if request.has .init then createSettings place (request.has .force)
  else
    match request.action? with
    | none => ⟨0, .empty, place.tree⟩
    | some (.resolve files) => resolveFiles place request files
    | some (.matchPattern pattern paths) => matchPaths place pattern paths
    | some (.check paths) => checkFiles place request paths
    | some (.fix paths) => fixFiles place request paths
    | some .showSettings => showSettings place request
    | some .validateSettings => validateSettings place request

/-- Run the program with its arguments. -/
def run (place : Place) (args : List String) : Result :=
  match readArguments args with
  | .error .version => ⟨0, .ofLines [versionLine], place.tree⟩
  | .error .help => ⟨0, .ofLines helpLines, place.tree⟩
  | .error .usage => ⟨2, .ofErrors helpLines, place.tree⟩
  | .ok request => perform { place with directory := place.directory.normalize } request

end LineEndings.Command

/-
Finding the settings files that apply to a directory.

The directory and those above it are searched, nearest first, up to the first file with the root mark;
the user's own file comes last. The first file that cannot be read ends the search with its failure.

A search without a home directory is one that leaves the user's file out. It is not one that fails because nobody
knows the home directory: who asks for the user's file gives the directory that it stands in.
-/
import LineEndings.Path.Basic
import LineEndings.Settings.File

namespace LineEndings

/-- The name of a settings file. -/
def SettingsFile.fileName : String := ".eolguard.toml"

/-- A settings file with its path. -/
structure LoadedSettings where
  file : SettingsFile
  path : Path
  deriving Repr, DecidableEq

namespace Settings

/-- Read the settings file at a path. -/
def readFile (files : Files) (path : Path) : Except Failure SettingsFile :=
  match files.read path with
  | .error fault => .error (.settingsRead path fault)
  | .ok contents => SettingsFile.read path contents

/-- What a search has found: the files it could read on its way up, nearest first, the user's own file
if that is another one, and the failure that ended the search. -/
structure Search where
  loaded : List LoadedSettings
  user? : Option LoadedSettings
  failure? : Option Failure
  deriving Repr

/-- The files found, if no failure ended the search. -/
def Search.result (search : Search) : Except Failure (List LoadedSettings) :=
  match search.failure? with
  | none => .ok (search.loaded ++ search.user?.toList)
  | some failure => .error failure

/-- Read the files of a list up to the first with the root mark or with a failure. -/
def searchAll (files : Files) : List Path → Search
  | [] => ⟨[], none, none⟩
  | path :: paths =>
    match readFile files path with
    | .error failure => ⟨[], none, some failure⟩
    | .ok file =>
      if file.root then ⟨[⟨file, path⟩], none, none⟩
      else
        let search := searchAll files paths
        { search with loaded := ⟨file, path⟩ :: search.loaded }

/-- The settings files of a directory and those above it, nearest first. -/
def candidates (files : Files) (start : Path) : List Path :=
  (start.ancestors.map (·.join ⟨SettingsFile.fileName⟩)).filter files.isFile

/-- Add the user's own file to a search, unless it has been found already. -/
def addUserFile (files : Files) (userFile : Path) (search : Search) : Search :=
  match search.failure? with
  | some _ => search
  | none =>
    -- The file may stand in a directory that has been searched.
    if search.loaded.any (·.path.same userFile) || !files.isFile userFile then search
    else
      match readFile files userFile with
      | .error failure => { search with failure? := some failure }
      | .ok file => { search with user? := some ⟨file, userFile⟩ }

/-- The user's own settings file, in the home directory. -/
def userFile (home : Path) : Path :=
  home.join ⟨SettingsFile.fileName⟩

/-- Search for the settings files of a directory; with a home directory, also for the user's own. -/
def search (files : Files) (start : Path) (home? : Option Path) : Search :=
  let found := searchAll files (candidates files start)
  match home? with
  | none => found
  | some home => addUserFile files (userFile home) found

/-- The settings files of a directory, nearest first. -/
def discover (files : Files) (start : Path) (home? : Option Path) :
    Except Failure (List LoadedSettings) :=
  (search files start home?).result

end Settings

end LineEndings

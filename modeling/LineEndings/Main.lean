/-
The program on a real file system.

What a run can touch is read into a tree before it starts: the settings and properties files of the directories
that bear on it, and what lies at and below the paths that it is given. The run takes place in the tree, and the
files that it changes are written back when it is over.

A tree knows no permissions and no links, so this layer stands in for them, and comes close where it cannot:

* a file that cannot be read stands in the tree with a content that is no text. So settings in it cannot be loaded,
  properties in it are passed over, and as a file to work on it is skipped; a warning says so if it is one. The
  cause that is told is the content, not the permission;
* a file that cannot be written is found out when the run is over and has named it as changed. A warning takes
  that back, and the run has failed, but the number of changed files is not corrected;
* a path that is given may be a link, links below it are left out, and a file with two names counts as two;
* only the environment says where the home directory is. Without it, a run that looks there for settings fails.
-/
import LineEndings.Command.Run

namespace LineEndings.Disk

/-- What has been read into a tree, and the files that could not be read. -/
structure Reading where
  tree : Tree
  unread : List Path

/-- What stands at a path, if anything does; a link may stand for what it leads to. -/
def type? (path : Path) (followLink : Bool) : IO (Option IO.FS.FileType) := do
  let here := (← IO.currentDir) / path.text
  try
    let metadata ← if followLink then here.metadata else here.symlinkMetadata
    return some metadata.type
  catch _ => return none

/-- The content of a file that cannot be read: none that is text, and none that looks binary. -/
def noText : ByteArray := ⟨#[0xff]⟩

namespace Reading

/-- The reading with the file at a path. -/
def addFile (reading : Reading) (path : Path) : IO Reading := do
  try
    let content ← IO.FS.readBinFile path.text
    return { reading with tree := reading.tree.put path.toAddress (.file content) }
  catch _ =>
    return { tree := reading.tree.put path.toAddress (.file noText), unread := path :: reading.unread }

def addDirectory (reading : Reading) (path : Path) : Reading :=
  { reading with tree := reading.tree.put path.toAddress .directory }

/-- The reading with what a path leads to, but nothing below it. -/
def add (reading : Reading) (path : Path) : IO Reading := do
  match ← type? path true with
  | some .file => reading.addFile path
  | some .dir => return reading.addDirectory path
  | _ => return reading

/-- The reading with the settings and properties files of a path and of all directories above it. -/
def addAbove (reading : Reading) (path : Path) : IO Reading := do
  let mut reading := reading
  for directory in path.normalize.ancestors do
    reading ← reading.add (directory.join ⟨SettingsFile.fileName⟩)
    reading ← reading.add (directory.join ⟨Property.fileName⟩)
  return reading

/-- The reading with a directory and all below it, but for what a workspace does not descend into. -/
partial def addAll (workspace : Workspace) (reading : Reading) (directory : Path) : IO Reading := do
  let mut reading := reading.addDirectory directory
  try
    for entry in ← ((← IO.currentDir) / directory.text).readDir do
      let path := directory.join ⟨entry.fileName⟩
      match ← type? path false with
      | some .file => reading ← reading.addFile path
      | some .dir => unless workspace.prunes path do reading ← addAll workspace reading path
      | _ => pure ()
  catch _ =>
    IO.eprintln ("Warning: Skipping unreadable directory: " ++ directory.text)
  return reading

end Reading

/-- The paths that an action works on. -/
def namedPaths (action? : Option Command.Action) : List Path :=
  match action? with
  | some (.check paths) | some (.fix paths) => if paths.isEmpty then [⟨"."⟩] else paths
  | _ => []

/-- The paths that an action asks about. -/
def askedPaths (action? : Option Command.Action) : List Path :=
  match action? with
  | some (.resolve files) => files
  | action? => namedPaths action?

/-- Read what a run can touch. -/
def read (directory home : Path) (request : Command.Request) : IO Reading := do
  let mut reading ← (Reading.mk .empty []).add directory
  reading ← reading.addAbove directory
  reading ← reading.add (directory.join (Settings.userFile home))
  for path in askedPaths request.action? do
    reading ← reading.addAbove (directory.join path)
  match (Command.searchSettings ⟨reading.tree, directory, home⟩ request).1.result with
  -- The run will end there.
  | .error _ => return reading
  | .ok loaded =>
    let workspace := Workspace.ofSettings directory (Settings.merge loaded)
    for path in (namedPaths request.action?).map workspace.absolute do
      reading ← match ← type? path true with
        | some .dir => reading.addAll workspace path
        | _ => reading.add path
    return reading

/-- The files that a run was to work on and that could not be read. -/
def Reading.missed (reading : Reading) (place : Command.Place) (request : Command.Request) : List Path :=
  if (namedPaths request.action?).isEmpty then []
  else
    match Command.openWorkspace place request (namedPaths request.action?) with
    | .error _ => []
    | .ok (_, files, _) => files.filter (· ∈ reading.unread)

/-- What a run without a home directory comes to, if it looks for settings there. -/
def homeless (place : Command.Place) (request : Command.Request) : Option Command.Result :=
  let message := "Failed to resolve home directory"
  let failing (lines : List String) : Option Command.Result := some ⟨1, .ofErrors lines, place.tree⟩
  -- Settings on the way up that cannot be loaded come first.
  match Settings.discover (place.tree.files.seenFrom place.directory) place.directory none with
  | .error _ => none
  | .ok _ =>
    if request.has .noUserFile || request.has .init then none
    else
      match request.action? with
      | some (.check _) | some (.fix _) => failing (Command.errorLines "Failed to load settings" [message])
      | some .showSettings => failing (Command.errorLines "Failed to discover settings" [message])
      | some .validateSettings => failing ["Settings error: " ++ message]
      | _ => none

/-- Write the files that differ from those of an earlier tree; the result are those that cannot be written. -/
def writeBack (before after : Tree) : IO (List Path) := do
  let mut unwritten := []
  for (address, item) in after.items do
    match item with
    | .directory => pure ()
    | .file content =>
      unless before.item? address = some (.file content) do
        try
          IO.FS.writeBinFile (Path.ofAddress address).text content
        catch _ => unwritten := unwritten ++ [Path.ofAddress address]
  return unwritten

/-- Print what a run says, and give its exit status. -/
def report (result : Command.Result) : IO UInt32 := do
  IO.print result.output.text
  IO.eprint result.output.errorText
  return result.exit.toUInt32

end LineEndings.Disk

open LineEndings in
/-- Run the program in the working directory. -/
def main (args : List String) : IO UInt32 := do
  let directory : Path := ⟨(← IO.currentDir).toString⟩
  let home? := (← IO.getEnv "HOME").filter (!·.isEmpty)
  let home : Path := ⟨home?.getD "/"⟩
  match Command.readArguments args with
  | .error _ => Disk.report (Command.run ⟨.empty, directory, home⟩ args)
  | .ok request =>
    let reading ← Disk.read directory home request
    let place : Command.Place := ⟨reading.tree, directory, home⟩
    let homeless? := if home?.isSome then none else Disk.homeless place request
    if let some result := homeless? then return ← Disk.report result
    let result := Command.run place args
    let unwritten ← Disk.writeBack place.tree result.tree
    let exit ← Disk.report result
    let missed := reading.missed place request
    for path in missed do
      IO.eprintln ("Warning: Failed to read file: " ++ path.text)
    for path in unwritten do
      IO.eprintln ("Warning: Failed to write file: " ++ path.text)
    -- To check a file that cannot be read is no failure.
    let failed := match request.action? with
      | some (.fix _) => !missed.isEmpty || !unwritten.isEmpty
      | _ => !unwritten.isEmpty
    return if failed then 1 else exit

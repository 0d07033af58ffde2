/-
Files to read from.

`Files` is all that resolving properties asks of a file system: whether a path is a file, and its
text. Nothing else is assumed, so what is proved of resolving holds of every file system.
-/
import LineEndings.Path.Basic

namespace LineEndings

/-- Why a file cannot be read or written. -/
inductive Fault where
  /-- There is nothing at the path. -/
  | notFound
  /-- A file stands where the path needs a directory. -/
  | notADirectory
  /-- A directory stands where the path needs a file. -/
  | isADirectory
  /-- The content is not text. -/
  | notText
  /-- A name in the path, or the path itself, is longer than the file system takes. -/
  | tooLong
  /-- A zero character stands in the path. -/
  | zeroInPath
  deriving Repr, DecidableEq

/-- The wording of a fault. -/
def Fault.message : Fault → String
  | .notFound => "No such file or directory (os error 2)"
  | .notADirectory => "Not a directory (os error 20)"
  | .isADirectory => "Is a directory (os error 21)"
  | .notText => "stream did not contain valid UTF-8"
  | .tooLong => "File name too long (os error 36)"
  | .zeroInPath => "file name contained an unexpected NUL byte"

/-- A file system, as far as it can be read. -/
structure Files where
  isFile : Path → Bool
  read : Path → Except Fault String

/-- The text of the file at a path, if there is a file and it can be read. -/
def Files.text? (files : Files) (path : Path) : Option String :=
  if files.isFile path then (files.read path).toOption else none

/-- A file system as a program sees it whose relative paths start at a directory. -/
def Files.seenFrom (files : Files) (directory : Path) : Files where
  isFile p := files.isFile (directory.join p)
  read p := files.read (directory.join p)

/-- A file system given by its files, the last entry for a path counting; a file without text cannot be
read. -/
def Files.ofList (entries : List (Path × Option String)) : Files where
  isFile p := entries.any (·.1.same p)
  read p :=
    match entries.reverse.find? (·.1.same p) with
    | none => .error .notFound
    | some (_, none) => .error .notText
    | some (_, some text) => .ok text

end LineEndings

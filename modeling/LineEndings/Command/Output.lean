/-
What a run prints: lines for the reader, and texts about errors.

Text that takes part in a line and has line breaks of its own is indented from its second line on. An
error is printed with its causes below it, numbered where there is more than one. A record of what the
program does is cleared of control sequences, its own line ending included, so it may end up without one.
-/
import LineEndings.Failure
import LineEndings.Text.Terminal

namespace LineEndings.Command

/-- What a run prints. The lines get their line endings when they are printed, and one that has line feeds of its
own shows as several; the texts about errors have their line endings. -/
structure Output where
  lines : List String
  errors : List String
  deriving Repr, DecidableEq

namespace Output

/-- No output. -/
def empty : Output := ⟨[], []⟩

/-- Lines for the reader. -/
def ofLines (lines : List String) : Output := ⟨lines, []⟩

/-- Lines about errors. -/
def ofErrors (lines : List String) : Output := ⟨[], lines.map (· ++ "\n")⟩

/-- Texts about errors that have their line endings. -/
def ofRecords (records : List String) : Output := ⟨[], records⟩

/-- One output after another. -/
def append (first second : Output) : Output :=
  ⟨first.lines ++ second.lines, first.errors ++ second.errors⟩

instance : Append Output := ⟨append⟩

/-- The text for the reader. -/
def text (output : Output) : String :=
  String.join (output.lines.map (· ++ "\n"))

/-- The text about errors. -/
def errorText (output : Output) : String :=
  String.join output.errors

end Output

/-- A text with a margin at the start of every line but the first. -/
def indented (margin text : String) : String :=
  ("\n" ++ margin).intercalate ((Text.pieces '\n' text.toList).map String.ofList)

/-! ### Errors -/

/-- The lines of numbered causes, from `number` on. -/
def numberedCauses (number : Nat) : List String → List String
  | [] => []
  | cause :: causes =>
    ("    " ++ toString number ++ ": " ++ indented "       " cause) :: numberedCauses (number + 1) causes

/-- An error with its causes. -/
def errorLines (message : String) (causes : List String) : List String :=
  ("error: " ++ message) ::
    match causes with
    | [] => []
    | [cause] => ["", "Caused by:", "    " ++ indented "    " cause]
    | causes => "" :: "Caused by:" :: numberedCauses 0 causes

/-- What could not be done, and the failure that is to blame. -/
def failureLines (message : String) (failure : Failure) : List String :=
  errorLines message (failure.message :: failure.cause?.toList)

/-- A record of what a part of the program does, which only shows when the program is asked to say more. -/
def debugRecord (origin message : String) : String :=
  Text.Terminal.plain ("[DEBUG eol_guardian::" ++ origin ++ "] " ++ indented "    " message ++ "\n")

end LineEndings.Command

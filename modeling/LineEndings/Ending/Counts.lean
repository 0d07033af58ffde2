/-
How many line breaks of each kind a text has.
-/
import LineEndings.Ending.Breaks

namespace LineEndings

/-- The numbers of line breaks of each kind; `cr` counts those without an `\n`. -/
structure Counts where
  lf : Nat
  crlf : Nat
  cr : Nat
  deriving Repr, DecidableEq

namespace Counts

/-- The counts of a text. -/
def ofText (text : List Char) : Counts :=
  let bs := breaks text
  ⟨bs.count .lf, bs.count .crlf, bs.count .cr⟩

/-- The more frequent of LF and CRLF, LF if they are even; nothing if there is neither. -/
def dominant? (counts : Counts) : Option Ending :=
  if counts.lf = 0 ∧ counts.crlf = 0 then none
  else if counts.lf < counts.crlf then some .crlf
  else some .lf

/-- Whether there is more than one kind of line break. -/
def isMixed (counts : Counts) : Bool :=
  1 < ([counts.lf, counts.crlf, counts.cr].filter (0 < ·)).length

/-- Whether every line break is of the kind `target`. -/
def isUniform (counts : Counts) : Ending → Bool
  | .lf => counts.crlf == 0 && counts.cr == 0
  | .crlf => counts.lf == 0 && counts.cr == 0

end Counts

end LineEndings

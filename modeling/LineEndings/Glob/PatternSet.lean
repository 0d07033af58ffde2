/-
Sets of patterns, and lists of patterns in one text.

A path matches a set if it matches a member. In a text, patterns are separated by commas outside of
braces, so `*.{js,ts}` is one pattern.
-/
import LineEndings.Glob.Pattern

namespace LineEndings.Glob

/-- Patterns in the order in which they were given. -/
structure PatternSet where
  patterns : List Pattern
  deriving Repr

/-- Compile every pattern that is not blank. -/
def PatternSet.ofList (raws : List String) : PatternSet :=
  ⟨(raws.filter (!Text.isAllBlank ·)).map Pattern.compile⟩

/-- The number of patterns. -/
def PatternSet.size (set : PatternSet) : Nat :=
  set.patterns.length

/-- Whether there is no pattern. -/
def PatternSet.isEmpty (set : PatternSet) : Bool :=
  set.patterns.isEmpty

/-- Whether a path matches some pattern. -/
def PatternSet.matches (set : PatternSet) (path : String) : Bool :=
  set.patterns.any (·.matches path)

/-- The patterns of a comma-separated list, trimmed, without the empty ones. -/
def splitPatterns (list : String) : List String :=
  (((Brace.cut list.toList).map Text.trim).filter (!·.isEmpty)).map String.ofList

end LineEndings.Glob

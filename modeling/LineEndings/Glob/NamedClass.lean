/-
Named classes: sets of ASCII characters that have a name.

The names are those of the portable character classes, with `ascii` and `word` added. How a pattern asks
for one is said where bracket expressions are (`LineEndings.Glob.Token`).
-/

namespace LineEndings.Glob

/-- A set of characters that has a name. -/
inductive NamedClass where
  | alnum
  | alpha
  | ascii
  | blank
  | cntrl
  | digit
  | graph
  | lower
  | print
  | punct
  | space
  | upper
  | word
  | xdigit
  deriving Repr, DecidableEq

namespace NamedClass

/-- All named classes. -/
def all : List NamedClass :=
  [alnum, alpha, ascii, blank, cntrl, digit, graph, lower, print, punct, space, upper, word, xdigit]

/-- The name of a class. -/
def name : NamedClass → String
  | alnum => "alnum"
  | alpha => "alpha"
  | ascii => "ascii"
  | blank => "blank"
  | cntrl => "cntrl"
  | digit => "digit"
  | graph => "graph"
  | lower => "lower"
  | print => "print"
  | punct => "punct"
  | space => "space"
  | upper => "upper"
  | word => "word"
  | xdigit => "xdigit"

/-- Whether `c` belongs to a class. No class holds a character beyond ASCII. -/
def admits (c : Char) : NamedClass → Bool
  | alnum => c.isAlphanum
  | alpha => c.isAlpha
  | ascii => c ≤ '\x7f'
  | blank => c == ' ' || c == '\t'
  | cntrl => c < ' ' || c == '\x7f'
  | digit => c.isDigit
  | graph => '!' ≤ c && c ≤ '~'
  | lower => c.isLower
  | print => ' ' ≤ c && c ≤ '~'
  | punct => '!' ≤ c && c ≤ '~' && !c.isAlphanum
  | space => c == ' ' || ('\t' ≤ c && c ≤ '\r')
  | upper => c.isUpper
  | word => c.isAlphanum || c == '_'
  | xdigit => c.isDigit || ('a' ≤ c && c ≤ 'f') || ('A' ≤ c && c ≤ 'F')

end NamedClass

end LineEndings.Glob

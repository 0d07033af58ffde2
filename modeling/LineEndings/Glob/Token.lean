/-
Tokens: the units of a glob pattern.

A pattern is read as a sequence of tokens (`LineEndings.Glob.Tokenizer`), and a sequence of tokens is
a set of texts (`LineEndings.Glob.Language`). A group holds one sequence for each of its branches, so
sequences nest.
-/
import LineEndings.Glob.NamedClass

namespace LineEndings.Glob

/-- A member of a bracket expression. -/
inductive ClassItem where
  | single (c : Char)
  | range (low high : Char)
  deriving Repr, DecidableEq

/-- Whether `c` is one of the characters an item stands for. -/
def ClassItem.admits (c : Char) : ClassItem → Bool
  | .single d => c == d
  | .range low high => low ≤ c && c ≤ high

/-- A bracket expression, which lists characters. -/
structure CharClass where
  negated : Bool
  items : List ClassItem
  deriving Repr, DecidableEq

/-- Whether `c` is one of the characters that a bracket expression lists, or, if it is negated, none of
them. A separator is never listed. -/
def CharClass.lists (cls : CharClass) (c : Char) : Bool :=
  c != '/' && (cls.items.any (·.admits c) != cls.negated)

/-- The items that ask for a named class: its name between two colons. -/
def NamedClass.items (named : NamedClass) : List ClassItem :=
  (':' :: named.name.toList ++ [':']).map .single

/-- The named classes by the items that ask for them. -/
def NamedClass.byItems : List (List ClassItem × NamedClass) :=
  all.map fun named => (named.items, named)

/-- The named class that a bracket expression asks for: it must hold the name and nothing else, and must
not be negated. -/
def CharClass.named? (cls : CharClass) : Option NamedClass :=
  if cls.negated then none else NamedClass.byItems.lookup cls.items

/-- Whether a bracket expression stands for `c`: the named class it asks for decides, if it asks for one,
and what it lists otherwise. It never stands for a separator. -/
def CharClass.admits (cls : CharClass) (c : Char) : Bool :=
  match cls.named? with
  | some named => c != '/' && named.admits c
  | none => cls.lists c

/-- One unit of a pattern. -/
inductive Token where
  /-- A character that stands for itself. -/
  | literal (c : Char)
  /-- `*`: any run of characters other than `/`. -/
  | star
  /-- `**`: any run of characters. -/
  | globStar
  /-- `?`: one character other than `/`. -/
  | question
  /-- `[…]`: one character that the class admits. -/
  | charClass (cls : CharClass)
  /-- A group in braces: a text of one of its branches. -/
  | group (branches : List (List Token))
  /-- What no text can match, such as `[]`. -/
  | never
  deriving Repr

/-- Whether a token is `never`. -/
def Token.isNever : Token → Bool
  | .never => true
  | _ => false

/-- Whether a sequence cannot match because `never` stands in it, groups not looked into. -/
def dead (tokens : List Token) : Bool :=
  tokens.any Token.isNever

end LineEndings.Glob

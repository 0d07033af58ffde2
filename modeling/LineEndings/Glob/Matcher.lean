/-
Deciding whether a sequence of tokens matches a text.

A table answers a question about every suffix of a text, longest suffix first (`tableOf`). A goal is a
word with such a table: it asks whether a suffix starts with the word and the answer for the rest is
yes. Going through a sequence of tokens from its end, a literal makes the word longer, and every other
token turns the goal into a new table; the goal at the start is "the suffix is empty", and the goal at
the end, asked of the whole text, says whether the sequence matches it.

A run of literals costs its own length, any other token the length of the text, however groups and stars
are nested.
-/
import LineEndings.Glob.Token

namespace LineEndings.Glob

/-- The answers of `question` for every suffix of a text, longest first. -/
def tableOf (question : List Char → Bool) : List Char → List Bool
  | [] => [question []]
  | c :: s => question (c :: s) :: tableOf question s

/-- The table after one character that `admits` holds of. -/
def afterOne (admits : Char → Bool) : List Char → List Bool → List Bool
  | [], _ => [false]
  | c :: s, table => (admits c && table.tail.headD false) :: afterOne admits s table.tail

/-- The table after any run of characters that `admits` holds of. -/
def afterRun (admits : Char → Bool) : List Char → List Bool → List Bool
  | [], table => table
  | c :: s, table =>
    let rest := afterRun admits s table.tail
    -- The run ends here, or it takes one more character.
    (table.headD false || (admits c && rest.headD false)) :: rest

/-- The table of a question that always has the answer no. -/
def nowhere (text : List Char) : List Bool :=
  tableOf (fun _ => false) text

/-- The table of a question that one of two tables says yes to. -/
def either (table other : List Bool) : List Bool :=
  table.zipWith (· || ·) other

/-- A word, and a table for what comes after it. -/
structure Goal where
  word : List Char
  table : List Bool

/-- The table of "starts with `word`, and after it the answer is yes", where `later` is the table of the
answers with as many entries dropped as the word is long. -/
def afterWord (word : List Char) : List Char → List Bool → List Bool
  | text, [] => nowhere text
  | [], yes :: _ => [yes && word.isEmpty]
  | c :: s, yes :: later => (yes && word.isPrefixOf (c :: s)) :: afterWord word s later

/-- The table of a goal. -/
def Goal.settle (goal : Goal) (text : List Char) : List Bool :=
  afterWord goal.word text (goal.table.drop goal.word.length)

mutual

/-- The goal "starts with a text of the token, and the rest meets `goal`". -/
def Token.before (text : List Char) (goal : Goal) : Token → Goal
  | .literal c => ⟨c :: goal.word, goal.table⟩
  | .star => ⟨[], afterRun (· != '/') text (goal.settle text)⟩
  | .globStar => ⟨[], afterRun (fun _ => true) text (goal.settle text)⟩
  | .question => ⟨[], afterOne (· != '/') text (goal.settle text)⟩
  | .charClass cls => ⟨[], afterOne cls.admits text (goal.settle text)⟩
  | .group branches => ⟨[], beforeSome text goal branches⟩
  | .never => ⟨[], nowhere text⟩

/-- The goal "starts with a text of the sequence, and the rest meets `goal`". -/
def beforeAll (text : List Char) (goal : Goal) : List Token → Goal
  | [] => goal
  | token :: tokens => token.before text (beforeAll text goal tokens)

/-- The table of "starts with a text of some branch, and the rest meets `goal`". -/
def beforeSome (text : List Char) (goal : Goal) : List (List Token) → List Bool
  | [] => nowhere text
  | branch :: branches =>
    either ((beforeAll text goal branch).settle text) (beforeSome text goal branches)

end

/-- Whether a sequence of tokens matches a whole text. -/
def accepts (tokens : List Token) (text : List Char) : Bool :=
  ((beforeAll text ⟨[], tableOf List.isEmpty text⟩ tokens).settle text).headD false

end LineEndings.Glob

/-
Tables under construction.

A table comes to be in three ways: a header or a literal defines it, a header mentions it on the way to
another, or a dotted key does. What may still be added to it depends on that. Values, literal arrays and
literal tables are closed. An array of tables is open at its last table.

`edit` goes down a path of keys, making the tables that are missing, and changes what it finds there; it
fails where the path meets something closed.
-/
import LineEndings.Toml.Value

namespace LineEndings.Toml

/-- How a table came to be. -/
inductive Origin where
  | defined
  /-- On the path of a header. -/
  | mentioned
  /-- On the path of a dotted key. -/
  | dotted
  deriving Repr, DecidableEq

/-- What stands at a key of a table under construction. -/
inductive Node where
  | closed (value : Value)
  | table (origin : Origin) (entries : List (String × Node))
  /-- An array of tables, the last one first. -/
  | tables (elements : List (List (String × Node)))
  deriving Repr

/-- The entries of a table under construction, in the order in which they came. -/
abbrev Entries := List (String × Node)

namespace Entries

/-- The entries with what stands at `key` replaced. -/
def replace (key : String) (node : Node) (entries : Entries) : Entries :=
  entries.map fun entry => if entry.1 = key then (key, node) else entry

/-- Change the table at a path, which a dotted key or a header spells out. A dotted key does not lead
into a table that has been defined. -/
def edit (origin : Origin) (change : Origin → Entries → Option Entries) :
    List String → Origin → Entries → Option Entries
  | [], found, entries => change found entries
  | key :: path, _, entries =>
    match entries.lookup key with
    | none => do
      let sub ← edit origin change path origin []
      some (entries ++ [(key, .table origin sub)])
    | some (.table found sub) =>
      if origin = .dotted ∧ found = .defined then none
      else do
        let sub ← edit origin change path found sub
        some (entries.replace key (.table found sub))
    | some (.tables (last :: rest)) => do
      let last ← edit origin change path .defined last
      some (entries.replace key (.tables (last :: rest)))
    | some _ => none

/-- Add a value at a key that a path of keys may precede. A table made by dotted keys takes no plain key,
and the path must lead to a table made by dotted keys. -/
def assign (path : List String) (key : String) (value : Value) (entries : Entries) :
    Option Entries :=
  let add (found : Origin) (entries : Entries) : Option Entries :=
    if (found == .dotted) == path.isEmpty then none
    else if (entries.lookup key).isSome then none
    else some (entries ++ [(key, .closed value)])
  edit .dotted add path .defined entries

/-- Define the table at a path and key, which headers on the way to others may have mentioned. -/
def define (path : List String) (key : String) (entries : Entries) : Option Entries :=
  let add (_ : Origin) (entries : Entries) : Option Entries :=
    match entries.lookup key with
    | none => some (entries ++ [(key, .table .defined [])])
    | some (.table .mentioned sub) => some (entries.replace key (.table .defined sub))
    | some _ => none
  edit .mentioned add path .defined entries

/-- Add a table to the array of tables at a path and key. -/
def append (path : List String) (key : String) (entries : Entries) : Option Entries :=
  let add (_ : Origin) (entries : Entries) : Option Entries :=
    match entries.lookup key with
    | none => some (entries ++ [(key, .tables [[]])])
    | some (.tables elements) => some (entries.replace key (.tables ([] :: elements)))
    | some _ => none
  edit .mentioned add path .defined entries

end Entries

mutual

/-- The finished value. -/
def Node.toValue : Node → Value
  | .closed value => value
  | .table _ entries => .table (finished entries)
  | .tables elements => .array (finishedTables elements).reverse

/-- The finished entries of a table. -/
def finished : List (String × Node) → List (String × Value)
  | [] => []
  | (key, node) :: rest => (key, node.toValue) :: finished rest

/-- The finished tables of an array. -/
def finishedTables : List (List (String × Node)) → List Value
  | [] => []
  | entries :: rest => .table (finished entries) :: finishedTables rest

end

end LineEndings.Toml

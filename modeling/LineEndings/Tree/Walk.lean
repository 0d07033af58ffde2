/-
Walking through a directory.

`Tree.below` lists what lies below a directory, depth first, the entries of each directory by their
names: that is the order of the addresses of a tree. `withoutPruned` goes through such a list and leaves
out the directories that a test prunes, with everything below them.
-/
import LineEndings.Tree.Basic

namespace LineEndings

namespace Tree

/-- The items below a directory, depth first. -/
def below (tree : Tree) (directory : Address) : List (Address × Item) :=
  tree.items.toList.filter fun entry => directory.isPrefixOf entry.1 && directory != entry.1

/-- A depth-first list without the directories that `prunes` holds of and what lies below them. -/
def withoutPruned (prunes : Address → Bool) : List (Address × Item) → List (Address × Item)
  | [] => []
  | (address, .file content) :: rest => (address, .file content) :: withoutPruned prunes rest
  | (address, .directory) :: rest =>
    if prunes address then
      withoutPruned prunes (rest.dropWhile fun entry => address.isPrefixOf entry.1)
    else (address, .directory) :: withoutPruned prunes rest
  termination_by items => items.length
  decreasing_by
    · simp
    · exact Nat.lt_succ_of_le (List.dropWhile_sublist _).length_le
    · simp

/-- The files below a directory, depth first, none of them below a pruned directory. -/
def filesBelow (tree : Tree) (prunes : Address → Bool) (directory : Address) : List Address :=
  (withoutPruned prunes (tree.below directory)).filterMap fun
    | (address, .file _) => some address
    | (_, .directory) => none

end Tree

end LineEndings

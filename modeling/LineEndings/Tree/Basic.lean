/-
A tree of files and directories.

A tree maps addresses to items; an address is the names on the way down from the top, which itself is
always a directory. Whatever has an address stands in a directory (`Tree.inDirectories`) and has a path
that the file system takes (`Tree.spellable`), and every operation keeps that. Addresses are in the order
that compares name after name, which is the order of a walk from the top. Setting an item changes what stands
there and nowhere else (`item?_set_self`, `item?_set_of_ne`).

`Tree.locate` follows a path through the tree, the way a file system does: every step starts from a
directory that exists, so a `..` after a name needs that name to be there. A relative path starts outside
the tree, in a directory that holds nothing.

A tree has neither permissions nor links: every file can be read and written, and has one name. So `Tree.write`
fails only where `Tree.read` fails too, and mending, which writes nothing that it has not read, never comes to
`Failure.fileWrite`. What is said about mending and checking is said of such trees.
-/
import LineEndings.Files
import LineEndings.Path.Normal
import Std.Data.TreeMap

namespace LineEndings

/-! ### Items by their addresses -/

/-- How many bytes a name may have. -/
def maxNameSize : Nat := 255

/-- How many bytes a path may have. -/
def maxPathSize : Nat := 4095

/-- Whether an address has a path that the file system takes. -/
def Address.Spellable (address : Address) : Prop :=
  (∀ name ∈ address, Path.IsName name ∧ '\x00' ∉ name.toList ∧ name.utf8ByteSize ≤ maxNameSize) ∧
    (Path.ofAddress address).text.utf8ByteSize ≤ maxPathSize

instance (address : Address) : Decidable address.Spellable :=
  inferInstanceAs (Decidable (_ ∧ _))

/-- What stands at an address. -/
inductive Item where
  | file (content : ByteArray)
  | directory

instance : DecidableEq Item
  | .file content, .file other =>
    -- Named, because a library may bring another instance for byte arrays.
    match ByteArray.instDecidableEq content other with
    | isTrue h => isTrue (congrArg Item.file h)
    | isFalse h => isFalse fun heq => h (Item.file.inj heq)
  | .directory, .directory => isTrue rfl
  | .file _, .directory => isFalse Item.noConfusion
  | .directory, .file _ => isFalse Item.noConfusion

/-- Items by their addresses. -/
abbrev Items := Std.TreeMap Address Item

/-- Whether a directory stands at an address; one stands at the top. -/
def Items.HasDirectory (items : Items) (address : Address) : Prop :=
  address = [] ∨ items[address]? = some .directory

instance (items : Items) (address : Address) : Decidable (items.HasDirectory address) :=
  inferInstanceAs (Decidable (_ ∨ _))

/-- Whether every item but the top, which is not listed, stands in a directory. -/
def Items.InDirectories (items : Items) : Prop :=
  ∀ address item, items[address]? = some item → address ≠ [] ∧ items.HasDirectory address.dropLast

/-- Whether every item has a path. -/
def Items.AreSpellable (items : Items) : Prop :=
  ∀ (address : Address) (item : Item), items[address]? = some item → address.Spellable

/-- Files and directories by their addresses. -/
structure Tree where
  items : Items
  inDirectories : items.InDirectories
  spellable : items.AreSpellable

namespace Tree

/-- What stands at an address. -/
def item? (tree : Tree) (address : Address) : Option Item :=
  if address = [] then some .directory else tree.items[address]?

/-! ### Changing a tree -/

/-- Whether an item may be set at an address: the address must have a path, the item must stand in a
directory, and a file does not take the place of a directory. -/
def Admits (items : Items) (address : Address) (item : Item) : Prop :=
  address ≠ [] ∧ address.Spellable ∧ items.HasDirectory address.dropLast ∧
    (items[address]? = some .directory → item = .directory)

instance (items : Items) (address : Address) (item : Item) : Decidable (Admits items address item) :=
  inferInstanceAs (Decidable (_ ∧ _ ∧ _ ∧ (_ → _)))

theorem inDirectories_insert {items : Items} {address : Address} {item : Item}
    (hitems : items.InDirectories) (h : Admits items address item) :
    Items.InDirectories (items.insert address item) := by
  obtain ⟨hne, -, hdir, hitem⟩ := h
  -- A directory that was there still is: only a directory takes the place of one.
  have keeps : ∀ d, items.HasDirectory d → Items.HasDirectory (items.insert address item) d := by
    intro d hd
    rcases hd with hd | hd
    · exact Or.inl hd
    · refine Or.inr ?_
      rw [Std.TreeMap.getElem?_insert]
      split
      · rename_i he
        rw [Std.LawfulEqCmp.compare_eq_iff_eq] at he
        rw [hitem (he ▸ hd)]
      · exact hd
  intro other found hfound
  rw [Std.TreeMap.getElem?_insert] at hfound
  split at hfound
  · rename_i he
    rw [Std.LawfulEqCmp.compare_eq_iff_eq] at he
    subst he
    exact ⟨hne, keeps _ hdir⟩
  · exact ⟨(hitems other found hfound).1, keeps _ (hitems other found hfound).2⟩

theorem areSpellable_insert {items : Items} {address : Address} {item : Item}
    (hitems : items.AreSpellable) (h : address.Spellable) :
    Items.AreSpellable (items.insert address item) := by
  intro other found hfound
  rw [Std.TreeMap.getElem?_insert] at hfound
  split at hfound
  · rename_i he
    rw [Std.LawfulEqCmp.compare_eq_iff_eq] at he
    exact he ▸ h
  · exact hitems other found hfound

/-- The tree with an item set at an address, where that is admitted. -/
def set (tree : Tree) (address : Address) (item : Item) : Tree :=
  if h : Admits tree.items address item then
    ⟨tree.items.insert address item, inDirectories_insert tree.inDirectories h,
      areSpellable_insert tree.spellable h.2.1⟩
  else tree

theorem item?_set_self {tree : Tree} {address : Address} {item : Item}
    (h : Admits tree.items address item) : (tree.set address item).item? address = some item := by
  simp [item?, set, h, h.1]

theorem item?_set_of_ne (tree : Tree) {address other : Address} (item : Item)
    (h : other ≠ address) : (tree.set address item).item? other = tree.item? other := by
  unfold set
  split
  · simp [item?, Std.TreeMap.getElem?_insert, Ne.symm h]
  · rfl

/-- The items that are not at or below an address. -/
def outside (items : Items) (address : Address) : Items :=
  items.filter fun other _ => !address.isPrefixOf other

theorem inDirectories_outside {items : Items} (address : Address) (h : items.InDirectories) :
    (outside items address).InDirectories := by
  intro other item hfound
  rw [outside, Std.TreeMap.getElem?_filter', Option.filter_eq_some_iff] at hfound
  obtain ⟨hfound, hout⟩ := hfound
  refine ⟨(h other item hfound).1, (h other item hfound).2.imp_right ?_⟩
  intro hd
  rw [outside, Std.TreeMap.getElem?_filter', Option.filter_eq_some_iff]
  refine ⟨hd, ?_⟩
  -- What lies below a removed directory is removed, so the directory above what is left is left.
  simp only [Bool.not_eq_true', Bool.eq_false_iff, ne_eq, List.isPrefixOf_iff_prefix] at hout ⊢
  exact fun hp => hout (hp.trans (List.dropLast_prefix _))

theorem areSpellable_outside {items : Items} (address : Address) (h : items.AreSpellable) :
    (outside items address).AreSpellable := by
  intro other item hfound
  rw [outside, Std.TreeMap.getElem?_filter', Option.filter_eq_some_iff] at hfound
  exact h other item hfound.1

/-- The tree without an address and all below it. -/
def remove (tree : Tree) (address : Address) : Tree :=
  ⟨outside tree.items address, inDirectories_outside address tree.inDirectories,
    areSpellable_outside address tree.spellable⟩

/-- The tree with nothing but its top. -/
def empty : Tree :=
  ⟨∅, by simp [Items.InDirectories], by simp [Items.AreSpellable]⟩

/-- The tree with directories at the addresses of a list that nothing stands at. -/
def addDirectories (tree : Tree) (addresses : List Address) : Tree :=
  addresses.foldl
    (fun tree address => if (tree.item? address).isSome then tree else tree.set address .directory) tree

/-- The tree with an item set at an address, and the directories above it made. -/
def put (tree : Tree) (address : Address) (item : Item) : Tree :=
  (tree.addDirectories ((List.range address.length).map address.take)).set address item

/-- The tree with an item set where a path leads, and the directories on its way made, those that it goes
up from again too. -/
def putAt (tree : Tree) (path : Path) (item : Item) : Tree :=
  (tree.addDirectories (path.ancestors.tail.reverse.map Path.toAddress)).put path.toAddress item

/-! ### Following paths -/

/-- Take one segment of a path from an address. -/
def step (tree : Tree) (here : Address) (segment : List Char) : Except Fault Address :=
  match tree.item? here with
  | none => .error .notFound
  | some (.file _) => .error .notADirectory
  | some .directory =>
    match Path.ofSegment? segment with
    | some .parent => .ok here.dropLast
    | some (.name name) =>
      if maxNameSize < name.utf8ByteSize then .error .tooLong else .ok (here ++ [name])
    | _ => .ok here

/-- Why a relative path leads to no address. With nothing but dots in it, it leads to a directory outside
the tree. -/
def faultOutside (path : Path) : Fault :=
  let names := (Text.pieces '/' path.text.toList).filterMap fun segment =>
    match Path.ofSegment? segment with
    | some (.name name) => some name
    | _ => none
  match names with
  | name :: _ => if maxNameSize < name.utf8ByteSize then .tooLong else .notFound
  | [] => if path.text.isEmpty then .notFound else .isADirectory

/-- The address that an absolute path leads to, whether something stands there or not. -/
def locate (tree : Tree) (path : Path) : Except Fault Address :=
  if '\x00' ∈ path.text.toList then .error .zeroInPath
  else if maxPathSize < path.text.utf8ByteSize then .error .tooLong
  else if path.isAbsolute then (Text.pieces '/' path.text.toList).foldlM (step tree) []
  else .error (faultOutside path)

/-- The tree without what a path leads to. -/
def removeAt (tree : Tree) (path : Path) : Tree :=
  match tree.locate path with
  | .ok address => tree.remove address
  | .error _ => tree

/-- What a path leads to. -/
def find? (tree : Tree) (path : Path) : Option Item :=
  match tree.locate path with
  | .ok address => tree.item? address
  | .error _ => none

/-- Whether a path leads to a file. -/
def isFile (tree : Tree) (path : Path) : Bool :=
  match tree.find? path with
  | some (.file _) => true
  | _ => false

/-- Whether a path leads to a directory. -/
def isDirectory (tree : Tree) (path : Path) : Bool :=
  match tree.find? path with
  | some .directory => true
  | _ => false

/-! ### Reading and writing -/

/-- The content of the file at a path. -/
def read (tree : Tree) (path : Path) : Except Fault ByteArray :=
  match tree.locate path with
  | .error fault => .error fault
  | .ok address =>
    match tree.item? address with
    | none => .error .notFound
    | some .directory => .error .isADirectory
    | some (.file content) => .ok content

/-- The text of the file at a path. -/
def readText (tree : Tree) (path : Path) : Except Fault String :=
  match tree.read path with
  | .error fault => .error fault
  | .ok content =>
    match String.fromUTF8? content with
    | some text => .ok text
    | none => .error .notText

/-- The tree with the content of the file at a path replaced, or the file made. -/
def write (tree : Tree) (path : Path) (content : ByteArray) : Except Fault Tree :=
  match tree.locate path with
  | .error fault => .error fault
  | .ok address =>
    match tree.item? address with
    | some .directory => .error .isADirectory
    | _ => .ok (tree.set address (.file content))

/-- A tree as a file system to read from. -/
def files (tree : Tree) : Files where
  isFile := tree.isFile
  read := tree.readText

end Tree

end LineEndings

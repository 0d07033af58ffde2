/-
What a walk finds.

A tree lists its items in the order of their addresses, so what lies below a directory comes right after it
(`mem_dropWhile_iff`), and leaving out a pruned directory leaves out that and nothing else.

* `mem_withoutPruned_iff` — what is left of a list is what no pruned directory of it lies above;
* `mem_filesBelow_iff` — a walk finds the files below the directory it starts from that have no pruned
  directory on the way to them;
* `pairwise_filesBelow` — it finds them depth first, the entries of a directory in the order of their names;
* `SameShape.filesBelow_eq` — what it finds depends on which files and directories there are, and not on
  what the files hold.
-/
import LineEndings.Tree.Walk
import LineEndings.Proofs.Text.Ordering
import LineEndings.Proofs.Tree.Locating

namespace LineEndings.Tree

variable {tree other : Tree} {prunes : Address → Bool} {directory : Address}

/-! ### The order of a walk -/

theorem compare_of_isPrefix {a b : Address} (h : a <+: b) (hne : a ≠ b) : compare a b = .lt := by
  induction a generalizing b with
  | nil =>
    cases b with
    | nil => exact absurd rfl hne
    | cons s b => rfl
  | cons s a ih =>
    obtain ⟨rest, rfl⟩ := h
    show List.compareLex compare (s :: a) (s :: (a ++ rest)) = .lt
    rw [List.compareLex_cons_cons, Std.ReflOrd.compare_self]
    exact ih (List.prefix_append a rest) fun heq => hne (congrArg (s :: ·) heq)

/-- What stands between an address and something below it stands below it too. -/
theorem isPrefix_of_between {a b c : Address} (h : a <+: c) (hab : compare a b = .lt)
    (hbc : compare b c = .lt) : a <+: b := by
  induction a generalizing b c with
  | nil => exact List.nil_prefix
  | cons s a ih =>
    obtain ⟨rest, rfl⟩ := h
    cases b with
    | nil => cases hab
    | cons t b =>
      change List.compareLex compare (s :: a) (t :: b) = .lt at hab
      change List.compareLex compare (t :: b) (s :: (a ++ rest)) = .lt at hbc
      rw [List.compareLex_cons_cons, Ordering.then_eq_lt] at hab hbc
      rcases hab with hst | ⟨hst, hab⟩
      · -- The first names would have to come in both orders.
        rw [Std.OrientedOrd.eq_swap, Ordering.swap_eq_lt] at hst
        rw [hst] at hbc
        rcases hbc with hts | ⟨hts, -⟩ <;> cases hts
      · obtain rfl := Std.LawfulEqOrd.eq_of_compare hst
        rcases hbc with hts | ⟨-, hbc⟩
        · rw [hst] at hts
          cases hts
        · exact (List.prefix_cons_inj s).2 (ih (List.prefix_append a rest) hab hbc)

/-- Whether a walk that takes the entries of every directory in the order of the bytes of their names comes to one
address before another: where the ways to the two part, the name on the way to the first has the smaller bytes. -/
def WalkedBefore (a b : Address) : Prop :=
  ∃ above s t, above ++ [s] <+: a ∧ above ++ [t] <+: b ∧ Text.bytes s < Text.bytes t

theorem walkedBefore_cons_iff {s t : String} {a b : Address} :
    WalkedBefore (s :: a) (t :: b) ↔ Text.bytes s < Text.bytes t ∨ s = t ∧ WalkedBefore a b := by
  constructor
  · rintro ⟨above, u, v, ha, hb, hlt⟩
    cases above with
    | nil =>
      rw [List.nil_append, List.cons_prefix_cons] at ha hb
      obtain ⟨rfl, -⟩ := ha
      obtain ⟨rfl, -⟩ := hb
      exact Or.inl hlt
    | cons w above =>
      rw [List.cons_append, List.cons_prefix_cons] at ha hb
      obtain ⟨rfl, ha⟩ := ha
      obtain ⟨rfl, hb⟩ := hb
      exact Or.inr ⟨rfl, above, u, v, ha, hb, hlt⟩
  · rintro (hlt | ⟨rfl, above, u, v, ha, hb, hlt⟩)
    · exact ⟨[], s, t, ⟨a, rfl⟩, ⟨b, rfl⟩, hlt⟩
    · exact ⟨s :: above, u, v, (List.prefix_cons_inj s).2 ha, (List.prefix_cons_inj s).2 hb, hlt⟩

/-- No two addresses are walked to one before the other and the other way round. -/
instance : Std.Asymm WalkedBefore where
  asymm a := by
    induction a with
    | nil =>
      rintro b ⟨above, s, t, ha, -⟩
      simp at ha
    | cons s a ih =>
      intro b
      cases b with
      | nil =>
        rintro ⟨above, t, u, -, hb, -⟩
        simp at hb
      | cons t b =>
        intro h h'
        rw [walkedBefore_cons_iff] at h h'
        rcases h with hst | ⟨rfl, h⟩
        · rcases h' with hts | ⟨rfl, -⟩
          · exact List.lt_asymm hst hts
          · exact List.lt_irrefl _ hst
        · rcases h' with hss | ⟨-, h'⟩
          · exact List.lt_irrefl _ hss
          · exact ih b h h'

/-- Of two addresses in order, the first is walked to before the second, unless the second lies below it. -/
theorem walkedBefore_of_compare {a b : Address} (h : compare a b = .lt) (hout : ¬ a <+: b) : WalkedBefore a b := by
  induction a generalizing b with
  | nil => exact absurd List.nil_prefix hout
  | cons s a ih =>
    cases b with
    | nil => cases h
    | cons t b =>
      change List.compareLex compare (s :: a) (t :: b) = .lt at h
      rw [List.compareLex_cons_cons, Ordering.then_eq_lt] at h
      rw [walkedBefore_cons_iff]
      rcases h with hst | ⟨hst, hrest⟩
      · exact Or.inl (Text.bytes_lt_of_lt (compareOfLessAndEq_eq_lt.1 hst))
      · obtain rfl := Std.LawfulEqOrd.eq_of_compare hst
        exact Or.inr ⟨rfl, ih hrest fun hstarts => hout ((List.prefix_cons_inj s).2 hstarts)⟩

/-- A list of entries in the order of their addresses. -/
def InOrder (l : List (Address × Item)) : Prop :=
  l.Pairwise fun entry other => compare entry.1 other.1 = .lt

theorem inOrder_below (tree : Tree) (directory : Address) : InOrder (tree.below directory) :=
  Std.TreeMap.ordered_keys_toList.filter _

/-- In order, what lies below an address comes right after it. -/
theorem mem_dropWhile_iff {address : Address} {rest : List (Address × Item)} {entry : Address × Item}
    (horder : InOrder rest) (hafter : ∀ other ∈ rest, compare address other.1 = .lt) :
    entry ∈ rest.dropWhile (fun other => address.isPrefixOf other.1) ↔
      entry ∈ rest ∧ ¬ address <+: entry.1 := by
  induction rest with
  | nil => simp
  | cons other rest ih =>
    obtain ⟨hother, hrest⟩ := List.pairwise_cons.1 horder
    rw [List.dropWhile_cons]
    by_cases hbelow : address <+: other.1
    · rw [if_pos (List.isPrefixOf_iff_prefix.2 hbelow),
        ih hrest fun e he => hafter e (List.mem_cons_of_mem _ he), List.mem_cons]
      constructor
      · exact fun h => ⟨Or.inr h.1, h.2⟩
      · rintro ⟨rfl | hmem, hout⟩
        · exact absurd hbelow hout
        · exact ⟨hmem, hout⟩
    · rw [if_neg fun h => hbelow (List.isPrefixOf_iff_prefix.1 h)]
      refine ⟨fun hmem => ⟨hmem, fun hentry => ?_⟩, And.left⟩
      rcases List.mem_cons.1 hmem with rfl | hmem
      · exact hbelow hentry
      · exact hbelow (isPrefix_of_between hentry (hafter other (by simp)) (hother entry hmem))

/-- Whether an entry of a list has no pruned directory of the list at or above it. -/
def Kept (prunes : Address → Bool) (l : List (Address × Item)) (entry : Address × Item) : Prop :=
  entry ∈ l ∧ ∀ d, (d, .directory) ∈ l → d <+: entry.1 → prunes d = false

variable {entry head : Address × Item} {rest l : List (Address × Item)}

theorem kept_cons_iff (horder : InOrder (head :: rest))
    (hhead : head.2 = .directory → prunes head.1 = false) :
    Kept prunes (head :: rest) entry ↔ entry = head ∨ Kept prunes rest entry := by
  constructor
  · rintro ⟨hmem, hpruned⟩
    exact (List.mem_cons.1 hmem).imp_right fun hmem =>
      ⟨hmem, fun d hd => hpruned d (List.mem_cons_of_mem _ hd)⟩
  · rintro (rfl | ⟨hmem, hpruned⟩)
    · refine ⟨by simp, fun d hd hstarts => ?_⟩
      rcases List.mem_cons.1 hd with rfl | hd
      · exact hhead rfl
      · -- What lies above the first entry would come before it.
        have hlt := (List.pairwise_cons.1 horder).1 _ hd
        by_cases heq : d = entry.1
        · rw [heq, Std.ReflOrd.compare_self] at hlt
          cases hlt
        · rw [Std.OrientedOrd.eq_swap, compare_of_isPrefix hstarts heq] at hlt
          cases hlt
    · refine ⟨List.mem_cons_of_mem _ hmem, fun d hd hstarts => ?_⟩
      rcases List.mem_cons.1 hd with rfl | hd
      · exact hhead rfl
      · exact hpruned d hd hstarts

theorem kept_cons_pruned_iff {address : Address} (horder : InOrder ((address, .directory) :: rest))
    (hprunes : prunes address = true) :
    Kept prunes ((address, .directory) :: rest) entry ↔
      Kept prunes (rest.dropWhile fun other => address.isPrefixOf other.1) entry := by
  obtain ⟨haddress, hrest⟩ := List.pairwise_cons.1 horder
  rw [Kept, Kept]
  simp only [mem_dropWhile_iff hrest haddress]
  constructor
  · rintro ⟨hmem, hpruned⟩
    have hout : ¬ address <+: entry.1 := by
      intro hstarts
      rw [hpruned address (by simp) hstarts] at hprunes
      cases hprunes
    rcases List.mem_cons.1 hmem with rfl | hmem
    · exact absurd List.prefix_rfl hout
    · exact ⟨⟨hmem, hout⟩, fun d hd => hpruned d (List.mem_cons_of_mem _ hd.1)⟩
  · rintro ⟨⟨hmem, hout⟩, hpruned⟩
    refine ⟨List.mem_cons_of_mem _ hmem, fun d hd hstarts => ?_⟩
    rcases List.mem_cons.1 hd with heq | hd
    · obtain rfl := (Prod.mk.inj heq).1
      exact absurd hstarts hout
    · exact hpruned d ⟨hd, fun h => hout (h.trans hstarts)⟩ hstarts

/-- What is left of a list in order. -/
theorem mem_withoutPruned_iff (horder : InOrder l) :
    entry ∈ withoutPruned prunes l ↔ Kept prunes l entry := by
  fun_induction withoutPruned prunes l with
  | case1 => simp [Kept]
  | case2 address content rest ih =>
    have hrest := ih horder.tail
    rw [List.mem_cons, hrest, kept_cons_iff horder fun h => nomatch h]
  | case3 address rest hprunes ih =>
    have hrest := ih (horder.tail.sublist (List.dropWhile_sublist _))
    rw [hrest, kept_cons_pruned_iff horder hprunes]
  | case4 address rest hprunes ih =>
    have hrest := ih horder.tail
    rw [List.mem_cons, hrest, kept_cons_iff horder fun _ => Bool.not_eq_true _ ▸ hprunes]

/-! ### What is found -/

theorem item?_of_mem_items {address : Address} {item : Item}
    (h : (address, item) ∈ tree.items.toList) : tree.item? address = some item := by
  rw [Std.TreeMap.mem_toList_iff_getElem?_eq_some] at h
  rw [item?_of_ne_nil (tree.inDirectories address item h).1, h]

theorem mem_below_iff {address : Address} {item : Item} :
    (address, item) ∈ tree.below directory ↔
      directory <+: address ∧ directory ≠ address ∧ tree.item? address = some item := by
  rw [below, List.mem_filter, Bool.and_eq_true, List.isPrefixOf_iff_prefix, bne_iff_ne]
  constructor
  · rintro ⟨hmem, hstarts, hne⟩
    exact ⟨hstarts, hne, item?_of_mem_items hmem⟩
  · rintro ⟨hstarts, hne, hitem⟩
    refine ⟨?_, hstarts, hne⟩
    -- The top lies below no directory.
    have htop : address ≠ [] := by
      rintro rfl
      exact hne (List.prefix_nil.1 hstarts)
    rwa [Std.TreeMap.mem_toList_iff_getElem?_eq_some, ← item?_of_ne_nil htop]

/-- What lies above something that stands in a tree is a directory. -/
theorem item?_of_isPrefix {above address : Address} {item : Item}
    (h : tree.item? address = some item) (hstarts : above <+: address) (hne : above ≠ address) :
    tree.item? above = some .directory := by
  obtain ⟨rest, rfl⟩ := hstarts
  induction rest using List.reverseRecOn generalizing item with
  | nil => exact absurd (List.append_nil above).symm hne
  | append_singleton rest s ih =>
    have hdir := item?_dropLast h
    rw [← List.append_assoc, List.dropLast_concat] at hdir
    by_cases hrest : rest = []
    · rwa [hrest, List.append_nil] at hdir
    · exact ih hdir fun heq => hrest (List.append_cancel_left (heq.symm.trans (List.append_nil _).symm))

/-- Whether a file stands below a directory. -/
def FileBelow (tree : Tree) (directory address : Address) : Prop :=
  directory <+: address ∧ directory ≠ address ∧ ∃ content, tree.item? address = some (.file content)

/-- A walk finds the files with no pruned directory on the way to them. -/
theorem mem_filesBelow_iff {address : Address} :
    address ∈ tree.filesBelow prunes directory ↔ tree.FileBelow directory address ∧
      ∀ between, directory <+: between → directory ≠ between → between <+: address →
        between ≠ address → prunes between = false := by
  have hkept : ∀ content, (address, .file content) ∈ withoutPruned prunes (tree.below directory) ↔
      (directory <+: address ∧ directory ≠ address ∧ tree.item? address = some (.file content)) ∧
        ∀ d, (directory <+: d ∧ directory ≠ d ∧ tree.item? d = some .directory) → d <+: address →
          prunes d = false := by
    intro content
    rw [mem_withoutPruned_iff (inOrder_below tree directory), Kept, mem_below_iff]
    simp only [mem_below_iff]
  have hfile : address ∈ tree.filesBelow prunes directory ↔
      ∃ content, (address, .file content) ∈ withoutPruned prunes (tree.below directory) := by
    rw [filesBelow, List.mem_filterMap]
    constructor
    · rintro ⟨⟨found, item⟩, hmem, hfound⟩
      cases item with
      | directory => cases hfound
      | file content => exact ⟨content, Option.some.inj hfound ▸ hmem⟩
    · rintro ⟨content, hmem⟩
      exact ⟨_, hmem, rfl⟩
  simp only [hfile, hkept]
  constructor
  · rintro ⟨content, ⟨hstarts, hne, hitem⟩, hpruned⟩
    refine ⟨⟨hstarts, hne, content, hitem⟩, fun between hfrom hstart hto hend => ?_⟩
    exact hpruned between ⟨hfrom, hstart, item?_of_isPrefix hitem hto hend⟩ hto
  · rintro ⟨⟨hstarts, hne, content, hitem⟩, hpruned⟩
    refine ⟨content, ⟨hstarts, hne, hitem⟩, fun d ⟨hfrom, hstart, hdir⟩ hto => ?_⟩
    refine hpruned d hfrom hstart hto fun heq => ?_
    rw [heq, hitem] at hdir
    cases hdir

theorem withoutPruned_sublist (prunes : Address → Bool) (l : List (Address × Item)) :
    (withoutPruned prunes l).Sublist l := by
  fun_induction withoutPruned prunes l with
  | case1 => exact .slnil
  | case2 address content rest ih => exact ih.cons_cons _
  | case3 address rest hprunes ih => exact (ih.trans (List.dropWhile_sublist _)).cons _
  | case4 address rest hprunes ih => exact ih.cons_cons _

/-- What a walk finds it finds in order. -/
theorem pairwise_filesBelow (tree : Tree) (prunes : Address → Bool) (directory : Address) :
    (tree.filesBelow prunes directory).Pairwise WalkedBefore := by
  have hsub := withoutPruned_sublist prunes (tree.below directory)
  rw [filesBelow, List.pairwise_filterMap]
  refine ((inOrder_below tree directory).sublist hsub).imp_of_mem ?_
  rintro ⟨a, item⟩ ⟨b, item'⟩ ha hb hcompare a' ha' b' hb'
  cases item with
  | directory => cases ha'
  | file content =>
    cases item' with
    | directory => cases hb'
    | file content' =>
      obtain rfl := Option.some.inj ha'
      obtain rfl := Option.some.inj hb'
      have hfile := (mem_below_iff.1 (hsub.subset ha)).2.2
      have hfile' := (mem_below_iff.1 (hsub.subset hb)).2.2
      -- No file lies below another.
      refine walkedBefore_of_compare hcompare fun hstarts => ?_
      by_cases hsame : a = b
      · rw [hsame, Std.ReflOrd.compare_self] at hcompare
        cases hcompare
      · rw [item?_of_isPrefix hfile' hstarts hsame] at hfile
        cases hfile

/-! ### Trees of the same shape -/

/-- An entry without what it holds. -/
def outlined (entry : Address × Item) : Address × Item :=
  (entry.1, entry.2.outline)

theorem SameShape.outlined_items (h : tree.SameShape other) :
    tree.items.toList.map outlined = other.items.toList.map outlined := by
  have hequiv : (tree.items.map fun _ item => item.outline).Equiv
      (other.items.map fun _ item => item.outline) := by
    refine Std.TreeMap.Equiv.of_forall_constGet?_eq fun address => ?_
    rw [Std.TreeMap.getElem?_map, Std.TreeMap.getElem?_map]
    by_cases hne : address = []
    · -- The top is in neither list.
      have hnone : ∀ t : Tree, t.items[address]? = none := by
        intro t
        cases hitem : t.items[address]? with
        | none => rfl
        | some item => exact absurd hne (t.inDirectories address item hitem).1
      rw [hnone tree, hnone other]
    · have haddress := h address
      rwa [item?_of_ne_nil hne, item?_of_ne_nil hne] at haddress
  have hlist := hequiv.toList_eq
  rwa [Std.TreeMap.toList_map, Std.TreeMap.toList_map] at hlist

theorem withoutPruned_map_outlined (prunes : Address → Bool) (l : List (Address × Item)) :
    withoutPruned prunes (l.map outlined) = (withoutPruned prunes l).map outlined := by
  fun_induction withoutPruned prunes l with
  | case1 => rw [List.map_nil, withoutPruned]
  | case2 address content rest ih =>
    show withoutPruned prunes ((address, .file .empty) :: rest.map outlined) = _
    rw [withoutPruned, ih]
    rfl
  | case3 address rest hprunes ih =>
    show withoutPruned prunes ((address, .directory) :: rest.map outlined) = _
    rw [withoutPruned, if_pos hprunes, List.dropWhile_map]
    exact ih
  | case4 address rest hprunes ih =>
    show withoutPruned prunes ((address, .directory) :: rest.map outlined) = _
    rw [withoutPruned, if_neg hprunes, ih]
    rfl

/-- The address of an entry that is a file. -/
def fileAddress? : Address × Item → Option Address
  | (address, .file _) => some address
  | (_, .directory) => none

theorem filesBelow_eq_outlined (tree : Tree) (prunes : Address → Bool) (directory : Address) :
    tree.filesBelow prunes directory =
      (withoutPruned prunes ((tree.items.toList.map outlined).filter fun entry =>
        directory.isPrefixOf entry.1 && directory != entry.1)).filterMap fileAddress? := by
  have hfile : ∀ l : List (Address × Item),
      (l.map outlined).filterMap fileAddress? = l.filterMap fileAddress? := by
    intro l
    rw [List.filterMap_map]
    refine List.filterMap_congr fun entry _ => ?_
    obtain ⟨address, item⟩ := entry
    cases item <;> rfl
  have hbelow : (tree.items.toList.map outlined).filter (fun entry =>
      directory.isPrefixOf entry.1 && directory != entry.1) = (tree.below directory).map outlined := by
    rw [List.filter_map]
    rfl
  rw [hbelow, withoutPruned_map_outlined, hfile]
  rfl

theorem SameShape.filesBelow_eq (h : tree.SameShape other) (prunes : Address → Bool)
    (directory : Address) : tree.filesBelow prunes directory = other.filesBelow prunes directory := by
  rw [filesBelow_eq_outlined, filesBelow_eq_outlined, h.outlined_items]

end LineEndings.Tree

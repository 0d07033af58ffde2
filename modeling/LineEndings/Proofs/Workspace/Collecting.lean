/-
The files that paths stand for.

For a workspace with an absolute root:

* `mem_collect`, `nodup_collect` — what is collected are files of the tree, each once, by the paths that
  spell out their addresses;
* `collect_ok_iff` — they are collected when every path leads to a file or to a directory;
* `isIgnored_of_mem_collect` — none of them is ignored;
* `collect_congr` — what is collected depends on which files and directories there are, and not on what
  the files hold.
-/
import LineEndings.Workspace.Collect
import LineEndings.Proofs.Scan
import LineEndings.Proofs.Tree.Walking

namespace LineEndings

namespace Workspace

variable {workspace : Workspace} {tree other : Tree} {paths : List Path} {files : List Path}

/-! ### Paths from the root -/

/-- A path as seen from an absolute root spells out an address. -/
theorem exists_absolute_eq (hroot : workspace.root.isAbsolute = true) (path : Path) :
    ∃ address : Address, (∀ s ∈ address, Path.IsName s) ∧
      workspace.absolute path = .ofAddress address := by
  have hnormal : ∀ p : Path, p.isAbsolute = true →
      ∃ address : Address, (∀ s ∈ address, Path.IsName s) ∧ p.normalize = .ofAddress address :=
    fun p hp => ⟨p.toAddress, fun _ => Path.isName_of_mem_toAddress, Path.normalize_of_absolute hp⟩
  rw [absolute]
  split
  · rename_i hpath
    exact hnormal path hpath
  · exact hnormal _ (Path.isAbsolute_join hroot path)

theorem isAbsolute_absolute (hroot : workspace.root.isAbsolute = true) (path : Path) :
    (workspace.absolute path).isAbsolute = true := by
  obtain ⟨address, -, habsolute⟩ := exists_absolute_eq hroot path
  rw [habsolute, Path.isAbsolute_ofAddress]

/-! ### What is collected -/

/-- Whether a path spells out the address of a file. -/
def SpellsFile (tree : Tree) (path : Path) : Prop :=
  ∃ address content, path = .ofAddress address ∧ tree.item? address = some (.file content)

theorem mem_filesAt (hroot : workspace.root.isAbsolute = true) {path : Path}
    (h : workspace.filesAt tree path = .ok files) : ∀ file ∈ files, SpellsFile tree file := by
  intro file hfile
  unfold filesAt at h
  simp only at h
  split at h
  · cases h
  · rename_i address hlocate
    split at h
    · cases h
    · rename_i content hitem
      obtain rfl := Except.ok.inj h
      obtain ⟨address', hnames, habsolute⟩ := exists_absolute_eq hroot path
      split at hfile
      · cases hfile
      · -- The path of a file leads to the address that it spells out, and no other.
        obtain rfl := List.mem_singleton.1 hfile
        rw [habsolute] at hlocate
        have haddress := (Tree.toAddress_of_locate hlocate).2
        rw [Path.toAddress_ofAddress hnames] at haddress
        exact ⟨address', content, habsolute, haddress ▸ hitem⟩
    · obtain rfl := Except.ok.inj h
      obtain ⟨address', hbelow, rfl⟩ := List.mem_map.1 (List.mem_filter.1 hfile).1
      obtain ⟨⟨-, -, content, hcontent⟩, -⟩ := Tree.mem_filesBelow_iff.1 hbelow
      exact ⟨address', content, rfl, hcontent⟩

theorem firstOccurrences_sublist {α : Type} [DecidableEq α] (l : List α) :
    (firstOccurrences l).Sublist l := by
  induction l with
  | nil => exact .slnil
  | cons a l ih => exact ((List.filter_sublist).trans ih).cons_cons a

theorem nodup_firstOccurrences {α : Type} [DecidableEq α] (l : List α) :
    (firstOccurrences l).Nodup := by
  induction l with
  | nil => exact List.nodup_nil
  | cons a l ih =>
    refine List.nodup_cons.2 ⟨?_, ih.sublist List.filter_sublist⟩
    intro hmem
    simpa using (List.mem_filter.1 hmem).2

/-- What is collected is the first occurrences of what the paths stand for. -/
theorem collect_eq_ok (h : workspace.collect tree paths = .ok files) :
    ∃ lists, paths.mapM (workspace.filesAt tree) = .ok lists ∧
      files = firstOccurrences lists.flatten := by
  rw [collect] at h
  cases hlists : paths.mapM (workspace.filesAt tree) with
  | error failure =>
    rw [hlists] at h
    cases h
  | ok lists =>
    rw [hlists] at h
    exact ⟨lists, rfl, (Except.ok.inj h).symm⟩

theorem mem_collect (hroot : workspace.root.isAbsolute = true)
    (h : workspace.collect tree paths = .ok files) : ∀ file ∈ files, SpellsFile tree file := by
  obtain ⟨lists, hlists, rfl⟩ := collect_eq_ok h
  intro file hfile
  obtain ⟨list, hlist, hmem⟩ := List.mem_flatten.1 ((firstOccurrences_sublist _).subset hfile)
  obtain ⟨path, -, hpath⟩ := mem_of_mapM_ok hlists list hlist
  exact mem_filesAt hroot hpath file hmem

theorem nodup_collect (h : workspace.collect tree paths = .ok files) : files.Nodup := by
  obtain ⟨lists, -, rfl⟩ := collect_eq_ok h
  exact nodup_firstOccurrences _

/-- Whether a path leads to a file or to a directory. -/
def Reaches (workspace : Workspace) (tree : Tree) (path : Path) : Prop :=
  tree.isFile (workspace.absolute path) = true ∨ tree.isDirectory (workspace.absolute path) = true

instance (workspace : Workspace) (tree : Tree) (path : Path) : Decidable (workspace.Reaches tree path) :=
  inferInstanceAs (Decidable (_ ∨ _))

/-- A path stands for files when it leads to a file or to a directory. -/
theorem filesAt_ok_iff :
    (∃ files, workspace.filesAt tree path = .ok files) ↔ workspace.Reaches tree path := by
  cases hlocate : tree.locate (workspace.absolute path) with
  | error fault => simp [filesAt, Reaches, Tree.isFile, Tree.isDirectory, Tree.find?, hlocate]
  | ok address =>
    cases hitem : tree.item? address with
    | none => simp [filesAt, Reaches, Tree.isFile, Tree.isDirectory, Tree.find?, hlocate, hitem]
    | some item =>
      cases item <;> simp [filesAt, Reaches, Tree.isFile, Tree.isDirectory, Tree.find?, hlocate, hitem]

/-- Files are collected when every path leads to a file or to a directory. -/
theorem collect_ok_iff : (∃ files, workspace.collect tree paths = .ok files) ↔
    ∀ path ∈ paths, workspace.Reaches tree path := by
  simp only [← filesAt_ok_iff]
  constructor
  · rintro ⟨files, hfiles⟩
    obtain ⟨lists, hlists, -⟩ := collect_eq_ok hfiles
    exact exists_ok_of_mapM_ok hlists
  · intro h
    obtain ⟨lists, hlists⟩ := exists_mapM_eq_ok h
    exact ⟨firstOccurrences lists.flatten, by rw [collect, hlists]; rfl⟩

theorem isIgnored_of_mem_filesAt (h : workspace.filesAt tree path = .ok files) :
    ∀ file ∈ files, workspace.isIgnored file = false := by
  intro file hfile
  unfold filesAt at h
  simp only at h
  split at h
  · cases h
  · split at h
    · cases h
    · obtain rfl := Except.ok.inj h
      split at hfile
      · cases hfile
      · rename_i hignored
        rw [List.mem_singleton.1 hfile]
        exact Bool.eq_false_iff.2 hignored
    · obtain rfl := Except.ok.inj h
      have hkept := (List.mem_filter.1 hfile).2
      rwa [Bool.not_eq_true'] at hkept

/-- None of the files that are collected is to be left alone. -/
theorem isIgnored_of_mem_collect (h : workspace.collect tree paths = .ok files) :
    ∀ file ∈ files, workspace.isIgnored file = false := by
  obtain ⟨lists, hlists, rfl⟩ := collect_eq_ok h
  intro file hfile
  obtain ⟨list, hlist, hmem⟩ := List.mem_flatten.1 ((firstOccurrences_sublist _).subset hfile)
  obtain ⟨path, -, hpath⟩ := mem_of_mapM_ok hlists list hlist
  exact isIgnored_of_mem_filesAt hpath file hmem

/-! ### Trees of the same shape -/

theorem filesAt_congr (h : tree.SameShape other) :
    workspace.filesAt tree = workspace.filesAt other := by
  funext path
  unfold filesAt
  rw [h.locate_eq]
  simp only
  split
  · rfl
  · rename_i address hlocate
    rcases h.cases address with hsame | ⟨content, content', htree, hother⟩
    · rw [hsame]
      have hbelow : workspace.filesBelow tree = workspace.filesBelow other := by
        funext directory
        rw [filesBelow, filesBelow, h.filesBelow_eq]
      rw [hbelow]
    · rw [htree, hother]

theorem collect_congr (h : tree.SameShape other) :
    workspace.collect tree = workspace.collect other := by
  funext paths
  rw [collect, collect, filesAt_congr h]

end Workspace

end LineEndings

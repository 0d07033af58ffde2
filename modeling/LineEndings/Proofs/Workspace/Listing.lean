/-
The list of files that paths stand for.

Every path stands for a list of its own: a file for itself, a directory for what a walk through it finds
(`filesAt_eq_ok_iff`). These lists are put one after the other, and of a file that is in them more than once the first
occurrence stays (`eq_firstOccurrences_iff`). Both are said without a word of how the lists are made: by what is in
them, and in which order, which leaves no choice.

* `collect_in_order` — the list is made when every path leads to a file or a directory, and then it is this one;
  otherwise the first path that leads to neither is to blame.
-/
import LineEndings.Proofs.Workspace.Pruning
import Mathlib.Data.List.Sort

namespace LineEndings

namespace Workspace

variable {workspace : Workspace} {tree : Tree} {path : Path} {paths files : List Path}

/-! ### First occurrences -/

/-- Whether a list has the members of another, in the order in which each of them comes there first. -/
structure KeepsFirst {α : Type} [DecidableEq α] (l firsts : List α) : Prop where
  mem_iff : ∀ a, a ∈ firsts ↔ a ∈ l
  inOrder : firsts.Pairwise fun a b => l.idxOf a < l.idxOf b

theorem keepsFirst_firstOccurrences {α : Type} [DecidableEq α] (l : List α) :
    KeepsFirst l (firstOccurrences l) := by
  refine ⟨fun a => mem_firstOccurrences, ?_⟩
  induction l with
  | nil => exact .nil
  | cons a l ih =>
    have hlater : ∀ b ∈ (firstOccurrences l).filter (· ≠ a), (a :: l).idxOf b = l.idxOf b + 1 := by
      intro b hb
      have hne : b ≠ a := by simpa using (List.mem_filter.1 hb).2
      exact List.idxOf_cons_ne l hne.symm
    refine List.pairwise_cons.2 ⟨fun b hb => ?_, ?_⟩
    · rw [hlater b hb, List.idxOf_cons_self]
      exact Nat.succ_pos _
    · refine (ih.sublist List.filter_sublist).imp_of_mem fun hb hc hlt => ?_
      rw [hlater _ hb, hlater _ hc]
      exact Nat.succ_lt_succ hlt

theorem eq_firstOccurrences_iff {α : Type} [DecidableEq α] {l firsts : List α} :
    firsts = firstOccurrences l ↔ KeepsFirst l firsts := by
  have hkept := keepsFirst_firstOccurrences l
  constructor
  · rintro rfl
    exact hkept
  · intro h
    exact h.inOrder.eq_of_mem_iff hkept.inOrder fun a => (h.mem_iff a).trans (hkept.mem_iff a).symm

/-! ### What one path stands for -/

/-- Whether a list has the files below a directory that are not ignored and that no pruned directory lies on the way
to, in the order of a walk. The directory itself may be one that would be pruned. -/
def ListsBelow (workspace : Workspace) (tree : Tree) (directory : Address) (files : List Path) : Prop :=
  ∃ addresses : List Address, files = addresses.map .ofAddress ∧ addresses.Pairwise Tree.WalkedBefore ∧
    ∀ address, address ∈ addresses ↔ tree.FileBelow directory address ∧
      workspace.isIgnored (.ofAddress address) = false ∧ ¬ workspace.PrunedBetween directory address

/-- Whether a list is what a path stands for: a file that is not ignored for itself, and a directory for what lies
below it. -/
inductive StandsFor (workspace : Workspace) (tree : Tree) (path : Path) : List Path → Prop
  | file (h : tree.isFile (workspace.absolute path) = true) (hignored : workspace.isIgnored path = false) :
      StandsFor workspace tree path [workspace.absolute path]
  | ignored (h : tree.isFile (workspace.absolute path) = true) (hignored : workspace.isIgnored path = true) :
      StandsFor workspace tree path []
  | directory {files : List Path} (h : tree.isDirectory (workspace.absolute path) = true)
      (hfiles : workspace.ListsBelow tree (workspace.absolute path).toAddress files) :
      StandsFor workspace tree path files

theorem listsBelow_filesBelow (workspace : Workspace) (tree : Tree) (directory : Address) :
    workspace.ListsBelow tree directory (workspace.filesBelow tree directory) := by
  refine ⟨(tree.filesBelow (fun address => workspace.prunes (.ofAddress address)) directory).filter
    (fun address => !workspace.isIgnored (.ofAddress address)), ?_, ?_, fun address => ?_⟩
  · rw [filesBelow, List.filter_map]
    rfl
  · exact (Tree.pairwise_filesBelow tree _ directory).sublist List.filter_sublist
  · rw [List.mem_filter, Tree.mem_filesBelow_iff, not_prunedBetween_iff, Bool.not_eq_true']
    constructor
    · rintro ⟨⟨hfile, hpruned⟩, hignored⟩
      exact ⟨hfile, hignored, hpruned⟩
    · rintro ⟨hfile, hignored, hpruned⟩
      exact ⟨⟨hfile, hpruned⟩, hignored⟩

/-- What lies below a directory is listed in one way only. -/
theorem ListsBelow.unique {directory : Address} {others : List Path} (h : workspace.ListsBelow tree directory files)
    (hothers : workspace.ListsBelow tree directory others) : files = others := by
  obtain ⟨addresses, rfl, horder, hmem⟩ := h
  obtain ⟨addresses', rfl, horder', hmem'⟩ := hothers
  rw [horder.eq_of_mem_iff horder' fun address => (hmem address).trans (hmem' address).symm]

theorem standsFor_filesAt (hroot : workspace.root.isAbsolute = true)
    (h : workspace.filesAt tree path = .ok files) : workspace.StandsFor tree path files := by
  have hignored : workspace.isIgnored (workspace.absolute path) = workspace.isIgnored path :=
    isIgnored_congr (absolute_absolute hroot path)
  rw [filesAt] at h
  cases hlocate : tree.locate (workspace.absolute path) with
  | error fault => simp [hlocate] at h
  | ok address =>
    simp only [hlocate, hignored] at h
    have hfind := Tree.find?_of_locate hlocate
    cases hitem : tree.item? address with
    | none => simp [hitem] at h
    | some item =>
      rw [hitem] at h hfind
      cases item with
      | file content =>
        have hfile : tree.isFile (workspace.absolute path) = true := Tree.isFile_iff.2 ⟨content, hfind⟩
        obtain rfl := Except.ok.inj h
        split
        · exact .ignored hfile ‹_›
        · exact .file hfile (Bool.eq_false_iff.2 ‹_›)
      | directory =>
        obtain rfl := Except.ok.inj h
        have hdirectory : tree.isDirectory (workspace.absolute path) = true := by
          rw [Tree.isDirectory, hfind]
        rw [← (Tree.toAddress_of_locate hlocate).2]
        exact .directory hdirectory (listsBelow_filesBelow workspace tree _)

theorem StandsFor.reaches (h : workspace.StandsFor tree path files) : workspace.Reaches tree path := by
  cases h with
  | file hfile _ => exact Or.inl hfile
  | ignored hfile _ => exact Or.inl hfile
  | directory hdirectory _ => exact Or.inr hdirectory

/-- A path stands for one list only. -/
theorem StandsFor.unique {others : List Path} (h : workspace.StandsFor tree path files)
    (hothers : workspace.StandsFor tree path others) : files = others := by
  have hone : tree.isFile (workspace.absolute path) = true → tree.isDirectory (workspace.absolute path) = false := by
    intro hfile
    obtain ⟨content, hfind⟩ := Tree.isFile_iff.1 hfile
    rw [Tree.isDirectory, hfind]
  cases h with
  | file hfile hignored =>
    cases hothers with
    | file => rfl
    | ignored _ hignored' => exact absurd (hignored.symm.trans hignored') Bool.false_ne_true
    | directory hdirectory _ => exact absurd ((hone hfile).symm.trans hdirectory) Bool.false_ne_true
  | ignored hfile hignored =>
    cases hothers with
    | file _ hignored' => exact absurd (hignored'.symm.trans hignored) Bool.false_ne_true
    | ignored => rfl
    | directory hdirectory _ => exact absurd ((hone hfile).symm.trans hdirectory) Bool.false_ne_true
  | directory hdirectory hbelow =>
    cases hothers with
    | file hfile _ => exact absurd ((hone hfile).symm.trans hdirectory) Bool.false_ne_true
    | ignored hfile _ => exact absurd ((hone hfile).symm.trans hdirectory) Bool.false_ne_true
    | directory _ hbelow' => exact hbelow.unique hbelow'

theorem filesAt_eq_ok_iff (hroot : workspace.root.isAbsolute = true) :
    workspace.filesAt tree path = .ok files ↔ workspace.StandsFor tree path files := by
  refine ⟨standsFor_filesAt hroot, fun h => ?_⟩
  obtain ⟨found, hfound⟩ := filesAt_ok_iff.2 h.reaches
  rw [h.unique (standsFor_filesAt hroot hfound), hfound]

/-- A path that leads to no file and no directory is to blame. -/
theorem filesAt_eq_error_iff {failure : Failure} :
    workspace.filesAt tree path = .error failure ↔
      ¬ workspace.Reaches tree path ∧ failure = .pathNotFound path := by
  have hblame : ∀ {found : Failure}, workspace.filesAt tree path = .error found → found = .pathNotFound path := by
    intro found h
    unfold filesAt at h
    simp only at h
    split at h
    · exact (Except.error.inj h).symm
    · split at h
      · exact (Except.error.inj h).symm
      · cases h
      · cases h
  constructor
  · intro h
    refine ⟨fun hreaches => ?_, hblame h⟩
    obtain ⟨files, hfiles⟩ := filesAt_ok_iff.2 hreaches
    rw [h] at hfiles
    cases hfiles
  · rintro ⟨hnot, rfl⟩
    cases hfiles : workspace.filesAt tree path with
    | ok files => exact absurd (filesAt_ok_iff.1 ⟨files, hfiles⟩) hnot
    | error found => rw [hblame hfiles]

/-! ### What all paths stand for -/

/-- A list is what the paths stand for, one after the other, each file where it comes first. -/
theorem collect_eq_ok_iff (hroot : workspace.root.isAbsolute = true) :
    workspace.collect tree paths = .ok files ↔
      ∃ lists, List.Forall₂ (workspace.StandsFor tree) paths lists ∧ KeepsFirst lists.flatten files := by
  have hlists : ∀ lists, paths.mapM (workspace.filesAt tree) = .ok lists ↔
      List.Forall₂ (workspace.StandsFor tree) paths lists := by
    intro lists
    simp only [mapM_eq_ok_iff, filesAt_eq_ok_iff hroot]
  constructor
  · intro h
    obtain ⟨lists, hfound, hfirst⟩ := collect_eq_ok h
    exact ⟨lists, (hlists lists).1 hfound, eq_firstOccurrences_iff.1 hfirst⟩
  · rintro ⟨lists, hfound, hfirst⟩
    rw [collect, (hlists lists).2 hfound, eq_firstOccurrences_iff.2 hfirst]
    rfl

/-- A list fails to be made with the first path that is to blame. -/
theorem collect_eq_error_iff {failure : Failure} :
    workspace.collect tree paths = .error failure ↔
      ∃ front path back, paths = front ++ path :: back ∧ (∀ other ∈ front, workspace.Reaches tree other) ∧
        ¬ workspace.Reaches tree path ∧ failure = .pathNotFound path := by
  have hcollect : workspace.collect tree paths = .error failure ↔
      paths.mapM (workspace.filesAt tree) = .error failure := by
    rw [collect]
    cases paths.mapM (workspace.filesAt tree) with
    | error failure' =>
      show (Except.error failure' : Except Failure (List Path)) = .error failure ↔ _
      rw [Except.error.injEq, Except.error.injEq]
    | ok lists =>
      show (Except.ok (firstOccurrences lists.flatten) : Except Failure (List Path)) = .error failure ↔ _
      simp only [reduceCtorEq]
  simp only [hcollect, mapM_eq_error_iff, filesAt_eq_error_iff, filesAt_ok_iff]

/-- The list of files that paths stand for. It fails with the first path that leads neither to a file nor to a
directory, as that was given, and is made if every path leads to one of the two. It is what they stand for, one after
the other, each file once where it comes first: a file that is not ignored, or the files below a directory in the
order of a walk, those left out that are ignored or lie in a pruned directory below the named one. All paths in it
are absolute and in normal form. -/
theorem collect_in_order {root : Path} (hroot : root.isAbsolute = true) (settings : Settings) (tree : Tree)
    (paths : List Path) :
    let workspace := ofSettings root settings
    (∀ failure, workspace.collect tree paths = .error failure ↔
      ∃ front path back, paths = front ++ path :: back ∧ (∀ other ∈ front, workspace.Reaches tree other) ∧
        ¬ workspace.Reaches tree path ∧ failure = .pathNotFound path) ∧
    ((∀ path ∈ paths, workspace.Reaches tree path) → ∃ files, workspace.collect tree paths = .ok files) ∧
    ∀ files, (workspace.collect tree paths = .ok files ↔
        ∃ lists, List.Forall₂ (workspace.StandsFor tree) paths lists ∧ KeepsFirst lists.flatten files) ∧
      (workspace.collect tree paths = .ok files →
        files.Nodup ∧ ∀ file ∈ files, file.isAbsolute = true ∧ file.normalize = file) := by
  intro workspace
  have habsolute := isAbsolute_root hroot settings
  refine ⟨fun failure => collect_eq_error_iff, collect_ok_iff.2,
    fun files => ⟨collect_eq_ok_iff habsolute, fun hfiles => ⟨nodup_collect hfiles, fun file hfile => ?_⟩⟩⟩
  obtain ⟨address, content, rfl, hitem⟩ := mem_collect habsolute hfiles file hfile
  exact ⟨Path.isAbsolute_ofAddress address, Path.normalize_ofAddress (Tree.isName_of_item? hitem)⟩

/-- A file named before and after the directory above it is listed once and first, and of two paths that lead nowhere
the first is to blame. -/
theorem collect_in_order_nested :
    (⟨"/w"⟩ : Path).isAbsolute = true ∧
      (ofSettings ⟨"/w"⟩ {}).collect nested [⟨"src"⟩, ⟨"gone"⟩, ⟨"lost"⟩] = .error (.pathNotFound ⟨"gone"⟩) ∧
      ∃ lists, List.Forall₂ ((ofSettings ⟨"/w"⟩ {}).StandsFor nested) [⟨"b"⟩, ⟨"."⟩, ⟨"./b"⟩] lists ∧
        KeepsFirst lists.flatten [(⟨"/w/b"⟩ : Path), ⟨"/w/src/deep/a"⟩] := by
  have hroot : (⟨"/w"⟩ : Path).isAbsolute = true := by decide
  have hblame := (collect_in_order hroot {} nested [⟨"src"⟩, ⟨"gone"⟩, ⟨"lost"⟩]).1 (.pathNotFound ⟨"gone"⟩)
  obtain ⟨-, -, hmade⟩ := collect_in_order hroot {} nested [⟨"b"⟩, ⟨"."⟩, ⟨"./b"⟩]
  refine ⟨hroot, hblame.2 ⟨[⟨"src"⟩], ⟨"gone"⟩, [⟨"lost"⟩], rfl, ?_, ?_, rfl⟩, (hmade _).1.1 ?_⟩
  · decide +kernel
  · decide +kernel
  · decide +kernel

end Workspace

end LineEndings

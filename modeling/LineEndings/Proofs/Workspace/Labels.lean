/-
The labels of files.

A label is what the path of a file says past the root, or all of it where the file lies outside, so it says where
the file stands: inside the root by the names below it (`label_inside`), outside by those from the top
(`label_outside`). It does so in one text, whatever the path looked like, because the path is taken to its normal
form first. So a label is read back as the path that it stands for (`absolute_label`), unless a backslash in a
name has become a slash:

* `absolute_absolute`, `label_absolute` — what is seen from the root once is seen so again;
* `absolute_label_of_notMem` — the label of a path without backslashes leads to the same file;
* `exists_label_below` — below a directory that the root does not lie in, labels start with that of the directory;
* `isIgnored_congr`, `expectation_congr` — what is done to a file does not depend on how its path was spelled.
-/
import LineEndings.Workspace.Check
import LineEndings.Proofs.Glob.Matching
import LineEndings.Proofs.Workspace.Collecting

namespace LineEndings

/-! ### Characters of a path -/

namespace Path

variable {p q : Path} {c : Char}

theorem notMem_ofAddress {a : Address} (hslash : c ≠ '/') (h : ∀ s ∈ a, c ∉ s.toList) :
    c ∉ (ofAddress a).text.toList := by
  rw [toList_ofAddress, List.mem_cons, not_or]
  refine ⟨hslash, fun hmem => ?_⟩
  rcases Text.mem_joined hmem with hc | ⟨piece, hpiece, hc⟩
  · exact hslash hc
  · obtain ⟨s, hs, rfl⟩ := List.mem_map.1 hpiece
    exact h s hs hc

/-- What is written for the names at the end of an address is the end of what is written for all. -/
theorem joined_suffix_ofAddress (root rest : Address) :
    Text.joined '/' (rest.map String.toList) <:+ (ofAddress (root ++ rest)).text.toList := by
  rw [toList_ofAddress, List.map_append]
  by_cases hroot : root = []
  · subst hroot
    exact List.suffix_cons '/' _
  · by_cases hrest : rest = []
    · subst hrest
      exact List.nil_suffix
    · rw [Text.joined_append '/' (by simpa using hroot) (by simpa using hrest)]
      exact ⟨'/' :: (Text.joined '/' (root.map String.toList) ++ ['/']), by simp⟩

/-- The names of a path are written in it. -/
theorem mem_of_mem_components {s : String} (h : .name s ∈ p.components) (hc : c ∈ s.toList) :
    c ∈ p.text.toList := by
  obtain ⟨segment, hsegment, hs⟩ := mem_componentsOf_name h
  rw [(ofSegment?_eq_name_iff.1 hs).2.2.2, String.toList_ofList] at hc
  exact Text.mem_of_mem_pieces hsegment hc

/-- The normal form of an absolute path is written with what the path is written with. -/
theorem notMem_normalize (hp : p.isAbsolute = true) (hslash : c ≠ '/') (h : c ∉ p.text.toList) :
    c ∉ p.normalize.text.toList := by
  rw [normalize_of_absolute hp]
  refine notMem_ofAddress hslash fun s hs hc => ?_
  rw [toAddress_of_absolute hp] at hs
  rcases isName_of_mem_foldl hs with hs | hs
  · cases hs
  · exact h (mem_of_mem_components hs hc)

theorem notMem_join (hslash : c ≠ '/') (hp : c ∉ p.text.toList) (hq : c ∉ q.text.toList) :
    c ∉ (p.join q).text.toList := by
  unfold join
  split
  · exact hq
  · split
    · simp [hp, hq]
    · simp [hp, hq, hslash]

end Path

namespace Workspace

variable {workspace : Workspace} {tree : Tree} {root address : Address}

/-! ### Labels -/

theorem absolute_ofAddress (hnames : ∀ s ∈ address, Path.IsName s) :
    workspace.absolute (.ofAddress address) = .ofAddress address := by
  rw [absolute, Path.isAbsolute_ofAddress, if_pos rfl, Path.normalize_ofAddress hnames]

/-- The label of what stands at an address in the root. -/
theorem label_inside (hroot : workspace.root = .ofAddress root)
    (hnames : ∀ s ∈ root ++ address, Path.IsName s) :
    workspace.label (.ofAddress (root ++ address)) =
      String.ofList (Glob.slashed (Text.joined '/' (address.map String.toList))) := by
  have htext : (Path.ofComponents (address.map .name)).text =
      String.ofList (Text.joined '/' (address.map String.toList)) := by
    have hcomponents : (address.map Component.name).map Path.componentText =
        address.map String.toList := by
      rw [List.map_map]
      rfl
    rw [← hcomponents]
    cases address <;> rfl
  rw [label, absolute_ofAddress hnames, hroot, Path.after?_ofAddress hnames]
  simp only
  rw [htext, String.toList_ofList]

/-- The label of what stands at an address outside of the root. -/
theorem label_outside (hroot : workspace.root = .ofAddress root)
    (hrootnames : ∀ s ∈ root, Path.IsName s) (hnames : ∀ s ∈ address, Path.IsName s)
    (h : ¬ root <+: address) :
    workspace.label (.ofAddress address) =
      String.ofList (Glob.slashed ('/' :: Text.joined '/' (address.map String.toList))) := by
  have hafter : (Path.ofAddress address).after? (.ofAddress root) = none := by
    rw [Option.eq_none_iff_forall_ne_some]
    intro rest hrest
    rw [Path.after?_eq_some_iff, Path.components_ofAddress hnames, Path.components_ofAddress hrootnames,
      List.cons_append, List.cons_inj_right] at hrest
    have hstarts : root.map Component.name <+: address.map .name := ⟨rest, hrest.symm⟩
    exact h ((List.prefix_map_iff_of_injective fun _ _ => Component.name.inj).1 hstarts)
  rw [label, absolute_ofAddress hnames, hroot, hafter]
  simp only
  rw [Path.toList_ofAddress]

/-- The label of a file is written with what its path is written with, but for the slashes. -/
theorem notMem_label {c : Char} (hroot : workspace.root = .ofAddress root)
    (hrootnames : ∀ s ∈ root, Path.IsName s) (hnames : ∀ s ∈ address, Path.IsName s) (hslash : c ≠ '/')
    (h : c ∉ (Path.ofAddress address).text.toList) :
    c ∉ (workspace.label (.ofAddress address)).toList := by
  by_cases hin : root <+: address
  · obtain ⟨rest, rfl⟩ := hin
    rw [label_inside hroot hnames, String.toList_ofList]
    exact Glob.notMem_slashed hslash fun hmem => h ((Path.joined_suffix_ofAddress root rest).mem hmem)
  · rw [label_outside hroot hrootnames hnames hin, String.toList_ofList, ← Path.toList_ofAddress]
    exact Glob.notMem_slashed hslash h

/-- A label leads to the file, unless a backslash in it has become a slash. -/
theorem absolute_label {root : Address} (hroot : workspace.root = .ofAddress root)
    (hrootnames : ∀ s ∈ root, Path.IsName s) (hnames : ∀ s ∈ address, Path.IsName s)
    (hplain : '\\' ∉ (Path.ofAddress address).text.toList) :
    workspace.absolute ⟨workspace.label (.ofAddress address)⟩ = .ofAddress address := by
  by_cases hin : root <+: address
  · obtain ⟨rest, rfl⟩ := hin
    have hrest : ∀ s ∈ rest, Path.IsName s := fun s hs => hnames s (List.mem_append_right _ hs)
    have hbelow : '\\' ∉ Text.joined '/' (rest.map String.toList) :=
      fun hmem => hplain ((Path.joined_suffix_ofAddress root rest).mem hmem)
    rw [label_inside hroot hnames, Glob.slashed_of_not_mem hbelow, absolute, Path.isAbsolute_joined_names hrest,
      if_neg Bool.false_ne_true, hroot, Path.normalize_join_names hnames]
  · rw [label_outside hroot hrootnames hnames hin, ← Path.toList_ofAddress, Glob.slashed_of_not_mem hplain,
      String.ofList_toList]
    exact absolute_ofAddress hnames

/-- Below a directory that the root does not lie in, labels start with the label of the directory and a
slash. -/
theorem exists_label_below (hroot : workspace.root = .ofAddress root)
    (hrootnames : ∀ s ∈ root, Path.IsName s) {directory rest : Address}
    (hnames : ∀ s ∈ directory ++ rest, Path.IsName s) (hrest : rest ≠ [])
    (hout : ¬ directory <+: root) :
    ∃ text, workspace.label (.ofAddress (directory ++ rest)) =
      workspace.label (.ofAddress directory) ++ "/" ++ text := by
  have hdirectory : ∀ s ∈ directory, Path.IsName s := fun s hs => hnames s (List.mem_append_left _ hs)
  by_cases hin : root <+: directory
  · obtain ⟨inner, rfl⟩ := hin
    have hinner : inner ≠ [] := by
      rintro rfl
      exact hout (by simp)
    refine ⟨String.ofList (Glob.slashed (Text.joined '/' (rest.map String.toList))), ?_⟩
    rw [List.append_assoc, label_inside hroot (by rwa [← List.append_assoc]),
      label_inside hroot hdirectory, ← String.toList_inj]
    simp only [String.toList_append, String.toList_ofList]
    rw [List.map_append, Text.joined_append '/' (by simpa using hinner) (by simpa using hrest),
      Glob.slashed_append, List.append_assoc]
    rfl
  · have hne : directory ≠ [] := by
      rintro rfl
      exact hout List.nil_prefix
    have hbelow : ¬ root <+: directory ++ rest := by
      intro hstarts
      rcases List.prefix_or_prefix_of_prefix hstarts (List.prefix_append directory rest) with h | h
      · exact hin h
      · exact hout h
    refine ⟨String.ofList (Glob.slashed (Text.joined '/' (rest.map String.toList))), ?_⟩
    rw [label_outside hroot hrootnames hnames hbelow, label_outside hroot hrootnames hdirectory hin,
      ← String.toList_inj]
    simp only [String.toList_append, String.toList_ofList]
    rw [List.map_append, Text.joined_append '/' (by simpa using hne) (by simpa using hrest),
      ← List.cons_append, Glob.slashed_append, List.append_assoc]
    rfl

/-! ### Paths and labels -/

section

variable {p q : Path}

theorem absolute_absolute (hroot : workspace.root.isAbsolute = true) (p : Path) :
    workspace.absolute (workspace.absolute p) = workspace.absolute p := by
  obtain ⟨address, hnames, habsolute⟩ := exists_absolute_eq hroot p
  rw [habsolute, absolute_ofAddress hnames]

/-- A label is given to what a path leads to. -/
theorem label_congr (h : workspace.absolute p = workspace.absolute q) : workspace.label p = workspace.label q := by
  rw [label, label, h]

theorem label_absolute (hroot : workspace.root.isAbsolute = true) (p : Path) :
    workspace.label (workspace.absolute p) = workspace.label p :=
  label_congr (absolute_absolute hroot p)

/-- The root of a workspace is in normal form. -/
theorem root_ofSettings {root : Path} (hroot : root.isAbsolute = true) (settings : Settings) :
    (ofSettings root settings).root = .ofAddress root.toAddress :=
  Path.normalize_of_absolute hroot

theorem isAbsolute_root {root : Path} (hroot : root.isAbsolute = true) (settings : Settings) :
    (ofSettings root settings).root.isAbsolute = true := by
  rw [root_ofSettings hroot, Path.isAbsolute_ofAddress]

/-- Seen from the root, a path is written with what the two are written with. -/
theorem escape_notMem_absolute {root : Path} (hroot : root.isAbsolute = true) (settings : Settings)
    (hplain : '\\' ∉ root.text.toList) (hp : '\\' ∉ p.text.toList) :
    '\\' ∉ ((ofSettings root settings).absolute p).text.toList := by
  have hslash : '\\' ≠ '/' := by decide
  rw [absolute]
  split
  · rename_i habsolute
    exact Path.notMem_normalize habsolute hslash hp
  · refine Path.notMem_normalize (Path.isAbsolute_join (isAbsolute_root hroot settings) p) hslash ?_
    exact Path.notMem_join hslash (Path.notMem_normalize hroot hslash hplain) hp

/-- Without backslashes, a label leads to what it is the label of. -/
theorem absolute_label_of_notMem {root : Path} (hroot : root.isAbsolute = true) (settings : Settings)
    (hplain : '\\' ∉ root.text.toList) (hp : '\\' ∉ p.text.toList) :
    (ofSettings root settings).absolute ⟨(ofSettings root settings).label p⟩ =
      (ofSettings root settings).absolute p := by
  have hescape := escape_notMem_absolute hroot settings hplain hp
  obtain ⟨address, hnames, habsolute⟩ := exists_absolute_eq (isAbsolute_root hroot settings) p
  rw [← label_absolute (isAbsolute_root hroot settings), habsolute]
  rw [habsolute] at hescape
  exact absolute_label (root_ofSettings hroot settings) (fun _ => Path.isName_of_mem_toAddress) hnames hescape

/-- Whether a file is left alone does not depend on how its path is spelled. -/
theorem isIgnored_congr (h : workspace.absolute p = workspace.absolute q) :
    workspace.isIgnored p = workspace.isIgnored q := by
  rw [isIgnored, isIgnored, label_congr h]

theorem prunes_congr (h : workspace.absolute p = workspace.absolute q) :
    workspace.prunes p = workspace.prunes q := by
  rw [prunes, prunes, label_congr h]

/-- What is expected of a file does not depend on how its path is spelled. -/
theorem expectation_congr (h : workspace.absolute p = workspace.absolute q) (tree : Tree) :
    workspace.expectation tree p = workspace.expectation tree q := by
  have hproperties : workspace.properties tree p = workspace.properties tree q := by
    rw [properties, properties, h]
  rw [expectation, expectation, hproperties, label_congr h]

/-- A path stands for the same files however it is spelled. -/
theorem filesAt_eq_ok_congr (h : workspace.absolute p = workspace.absolute q) {files : List Path}
    (hfiles : workspace.filesAt tree p = .ok files) : workspace.filesAt tree q = .ok files := by
  unfold filesAt at hfiles ⊢
  rw [h] at hfiles
  -- The path itself is only named where it leads nowhere.
  cases hlocate : tree.locate (workspace.absolute q) with
  | error fault => simp [hlocate] at hfiles
  | ok address =>
    cases hitem : tree.item? address with
    | none => simp [hlocate, hitem] at hfiles
    | some item => cases item <;> simpa [hlocate, hitem] using hfiles

end

end Workspace

end LineEndings

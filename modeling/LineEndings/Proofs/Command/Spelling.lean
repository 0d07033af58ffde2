/-
How paths are spelled does not matter.

What a run does with a path it does with the place that the path leads to, seen from the working directory
(`Workspace.collect_eq_ok_congr`). So two runs that are given the same places in other words do the same and print
the same, but for a path that leads nowhere, which the failure repeats as it was given (`checkFiles_respelled`,
`fixFiles_respelled`).

* `label_eq_iff_absolute_eq` — without backslashes, labels and places are one to one, and a run that names files by
  their labels depends on no spelling and mistakes no file for another.
-/
import LineEndings.Proofs.Command.Reporting

namespace LineEndings

namespace Workspace

variable {workspace : Workspace} {tree : Tree} {paths respelled : List Path} {files : List Path}

/-- Whether two lists of paths lead to the same places, one path after the other. -/
def Respells (workspace : Workspace) (paths respelled : List Path) : Prop :=
  List.Forall₂ (fun p q => workspace.absolute p = workspace.absolute q) paths respelled

theorem Respells.symm (h : workspace.Respells paths respelled) : workspace.Respells respelled paths :=
  (List.Forall₂.flip h).imp fun _ _ => Eq.symm

theorem mapM_filesAt_congr (h : workspace.Respells paths respelled) {lists : List (List Path)}
    (hlists : paths.mapM (workspace.filesAt tree) = .ok lists) :
    respelled.mapM (workspace.filesAt tree) = .ok lists := by
  rw [mapM_eq_ok_iff] at hlists ⊢
  induction h generalizing lists with
  | nil => exact hlists
  | cons hpath _ ih =>
    obtain ⟨found, rest, hfound, hrest, rfl⟩ := List.forall₂_cons_left_iff.1 hlists
    exact .cons (filesAt_eq_ok_congr hpath hfound) (ih hrest)

/-- What paths stand for does not depend on how they are spelled. -/
theorem collect_eq_ok_congr (h : workspace.Respells paths respelled)
    (hfiles : workspace.collect tree paths = .ok files) : workspace.collect tree respelled = .ok files := by
  obtain ⟨lists, hlists, rfl⟩ := collect_eq_ok hfiles
  rw [collect, mapM_filesAt_congr h hlists]
  rfl

/-- The label of a file that is collected leads to the file, unless a backslash in it has become a slash. -/
theorem absolute_label_of_mem_collect {root : Path} (hroot : root.isAbsolute = true) {settings : Settings}
    (hfiles : (ofSettings root settings).collect tree paths = .ok files) {file : Path} (hfile : file ∈ files)
    (hplain : '\\' ∉ file.text.toList) :
    (ofSettings root settings).absolute ⟨(ofSettings root settings).label file⟩ = file := by
  obtain ⟨address, content, rfl, hitem⟩ := mem_collect (isAbsolute_root hroot settings) hfiles file hfile
  exact absolute_label (root_ofSettings hroot settings) (fun _ => Path.isName_of_mem_toAddress)
    (Tree.isName_of_item? hitem) hplain

end Workspace

namespace Command

variable {place : Place} {request : Request} {paths respelled : List Path}

/-- Whether two runs leave the same behind, but for the texts about errors. -/
structure Result.Alike (result other : Result) : Prop where
  exit : result.exit = other.exit
  lines : result.output.lines = other.output.lines
  tree : result.tree = other.tree

theorem Result.Alike.refl (result : Result) : result.Alike result :=
  ⟨rfl, rfl, rfl⟩

/-- The paths that stand for no paths at all are the same. -/
theorem respells_namedPaths {workspace : Workspace} (h : workspace.Respells paths respelled) :
    workspace.Respells (namedPaths paths) (namedPaths respelled) := by
  cases h with
  | nil => exact List.forall₂_same.2 fun _ _ => rfl
  | cons hpath hpaths => exact .cons hpath hpaths

/-- Opening a workspace for the same places gives the same files, or fails in both cases. -/
theorem openWorkspace_respelled
    (h : ∀ settings, (Workspace.ofSettings place.directory settings).Respells paths respelled) :
    openWorkspace place request paths = openWorkspace place request respelled ∨
      ∃ result other, openWorkspace place request paths = .error result ∧
        openWorkspace place request respelled = .error other ∧ result.Alike other := by
  cases hload : loadedSettings place request with
  | error failure =>
    -- The paths are not looked at.
    have hsearch : (searchSettings place request).1.result = .error failure := hload
    refine Or.inl ?_
    simp only [openWorkspace, hsearch]
  | ok loaded =>
    have hpaths := respells_namedPaths (h (Settings.merge loaded))
    obtain ⟨output, houtput, hopen⟩ := exists_openWorkspace_eq hload
    rw [hopen, hopen]
    cases hfiles : (Workspace.ofSettings place.directory (Settings.merge loaded)).collect place.tree
        (namedPaths paths) with
    | ok files => exact Or.inl (by rw [Workspace.collect_eq_ok_congr hpaths hfiles])
    | error failure =>
      cases hrespelled : (Workspace.ofSettings place.directory (Settings.merge loaded)).collect place.tree
          (namedPaths respelled) with
      | ok files =>
        rw [Workspace.collect_eq_ok_congr hpaths.symm hrespelled] at hfiles
        cases hfiles
      | error failure' => exact Or.inr ⟨_, _, rfl, rfl, rfl, rfl, rfl⟩

/-- What is done with what has been opened, and with the failure to open it, is alike for the same places. -/
theorem alike_of_openWorkspace {action : List Path → Result}
    (hfailed : ∀ paths result, openWorkspace place request paths = .error result → action paths = result)
    (hopened : ∀ paths respelled, openWorkspace place request paths = openWorkspace place request respelled →
      action paths = action respelled)
    (h : ∀ settings, (Workspace.ofSettings place.directory settings).Respells paths respelled) :
    (action paths).Alike (action respelled) := by
  rcases openWorkspace_respelled h with hsame | ⟨result, other, hpaths, hrespelled, halike⟩
  · rw [hopened _ _ hsame]
    exact .refl _
  · rw [hfailed _ _ hpaths, hfailed _ _ hrespelled]
    exact halike

theorem checkFiles_respelled
    (h : ∀ settings, (Workspace.ofSettings place.directory settings).Respells paths respelled) :
    (checkFiles place request paths).Alike (checkFiles place request respelled) :=
  alike_of_openWorkspace (fun _ _ hopen => by rw [checkFiles, hopen])
    (fun _ _ hopen => by rw [checkFiles, checkFiles, hopen]) h

theorem fixFiles_respelled
    (h : ∀ settings, (Workspace.ofSettings place.directory settings).Respells paths respelled) :
    (fixFiles place request paths).Alike (fixFiles place request respelled) :=
  alike_of_openWorkspace (fun _ _ hopen => by rw [fixFiles, hopen])
    (fun _ _ hopen => by rw [fixFiles, fixFiles, hopen]) h

/-- Labels and places are one to one. What is seen from an absolute root once is seen so again, and has the same
label; where there is no backslash in the root and in two paths, a label leads to what it is the label of, so the
labels are the same exactly when the places are. What is ignored and what is expected do not depend on how a path
is spelled, nor does what a run to check or to mend leaves behind and prints; and the labels that it prints lead to
the files that they stand for, so no file is mistaken for another. -/
theorem label_eq_iff_absolute_eq {root : Path} (hroot : root.isAbsolute = true)
    (hplain : '\\' ∉ root.text.toList) (settings : Settings) {p q : Path} (hp : '\\' ∉ p.text.toList)
    (hq : '\\' ∉ q.text.toList) :
    let workspace := Workspace.ofSettings root settings
    workspace.absolute (workspace.absolute p) = workspace.absolute p ∧
    workspace.label (workspace.absolute p) = workspace.label p ∧
    workspace.absolute ⟨workspace.label p⟩ = workspace.absolute p ∧
    (workspace.label p = workspace.label q ↔ workspace.absolute p = workspace.absolute q) ∧
    (workspace.absolute p = workspace.absolute q → workspace.isIgnored p = workspace.isIgnored q ∧
      ∀ tree, workspace.expectation tree p = workspace.expectation tree q) ∧
    (∀ (place : Place) (request : Request) (paths respelled : List Path), place.directory = root →
      workspace.Respells paths respelled →
        (checkFiles place request paths).Alike (checkFiles place request respelled) ∧
        (fixFiles place request paths).Alike (fixFiles place request respelled)) ∧
    ∀ tree paths files, workspace.collect tree paths = .ok files → ∀ file ∈ files,
      '\\' ∉ file.text.toList → workspace.absolute ⟨workspace.label file⟩ = file ∧
        ∀ other ∈ files, '\\' ∉ other.text.toList →
          workspace.label other = workspace.label file → other = file := by
  intro workspace
  have hrootabsolute := Workspace.isAbsolute_root hroot settings
  have hleads : ∀ path : Path, '\\' ∉ path.text.toList →
      workspace.absolute ⟨workspace.label path⟩ = workspace.absolute path :=
    fun path => Workspace.absolute_label_of_notMem hroot settings hplain
  refine ⟨Workspace.absolute_absolute hrootabsolute p, Workspace.label_absolute hrootabsolute p, hleads p hp,
    ⟨fun h => ?_, Workspace.label_congr⟩,
    fun h => ⟨Workspace.isIgnored_congr h, fun tree => Workspace.expectation_congr h tree⟩, ?_, ?_⟩
  · rw [← hleads p hp, ← hleads q hq, h]
  · rintro place request paths respelled rfl hrespells
    exact ⟨checkFiles_respelled fun _ => hrespells, fixFiles_respelled fun _ => hrespells⟩
  · intro tree paths files hfiles file hfile hescape
    have hfound := Workspace.absolute_label_of_mem_collect hroot hfiles hfile hescape
    refine ⟨hfound, fun other hother hescape' hlabel => ?_⟩
    rw [← hfound, ← hlabel]
    exact (Workspace.absolute_label_of_mem_collect hroot hfiles hother hescape').symm

/-- Out of the root and back in, and the same file by its whole path. -/
theorem label_of_detour :
    (⟨"/w/../w/c/"⟩ : Path).isAbsolute = true ∧ '\\' ∉ (⟨"/w/../w/c/"⟩ : Path).text.toList ∧
      '\\' ∉ (⟨"../../../w/./c/x/..//a"⟩ : Path).text.toList ∧ '\\' ∉ (⟨"/w/c/a"⟩ : Path).text.toList ∧
      (Workspace.ofSettings ⟨"/w/../w/c/"⟩ {}).label ⟨"../../../w/./c/x/..//a"⟩ =
        (Workspace.ofSettings ⟨"/w/../w/c/"⟩ {}).label ⟨"/w/c/a"⟩ := by
  have hroot : (⟨"/w/../w/c/"⟩ : Path).isAbsolute = true := by decide
  have hplain : '\\' ∉ (⟨"/w/../w/c/"⟩ : Path).text.toList := by decide
  have hp : '\\' ∉ (⟨"../../../w/./c/x/..//a"⟩ : Path).text.toList := by decide
  have hq : '\\' ∉ (⟨"/w/c/a"⟩ : Path).text.toList := by decide
  obtain ⟨-, -, -, hlabel, -⟩ := label_eq_iff_absolute_eq hroot hplain {} hp hq
  exact ⟨hroot, hplain, hp, hq, hlabel.2 (by decide +kernel)⟩

end Command

end LineEndings

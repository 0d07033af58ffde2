/-
What pruning leaves out.

A directory is pruned when its label with a slash after it is to be left alone, and a file is ignored when
its own label is. Below a directory that the root does not lie in, labels start with the label of the
directory and a slash (`exists_label_below`). So the two tests agree for a pattern that, once it matches up
to the slash, matches whatever comes after (`Glob.CoversBelow`), as one that ends with `**` does. They do
not agree for every pattern: a star at the end matches nothing at all too, so `src/*` prunes `src`, and with
it what lies deeper and is not ignored.

* `collect_directory_iff` — what a directory stands for, and when pruning loses nothing;
* `collect_passes_over_deep` — a file that is lost.
-/
import LineEndings.Proofs.Workspace.Labels

namespace LineEndings

namespace Glob

/-! ### Patterns that cover what is below -/

/-- Whether a pattern that matches a path with a slash at its end matches every path that goes on from
there. -/
def CoversBelow (raw : String) : Prop :=
  ∀ directory rest : String, (Pattern.compile raw).matches (directory ++ "/") = true →
    (Pattern.compile raw).matches (directory ++ "/" ++ rest) = true

theorem lastSegment_snoc_slash (s : List Char) : lastSegment (s ++ ['/']) = [] := by
  rw [lastSegment, List.reverse_append]
  rfl

/-- A pattern that ends with `**` covers what is below. -/
theorem coversBelow_of_globStar {raw : String} (h : (tokensOf raw).getLast? = some .globStar) :
    CoversBelow raw := by
  obtain ⟨tokens, h⟩ := List.getLast?_eq_some_iff.1 h
  intro directory rest hmatch
  rw [matches_iff_selects] at hmatch ⊢
  obtain ⟨hblank, hnever, hmatch⟩ := hmatch
  refine ⟨hblank, hnever, ?_⟩
  rw [h] at hmatch ⊢
  obtain ⟨u, v, htext, hu, -⟩ := matches_append_iff.1 hmatch
  refine matches_append_iff.2 ?_
  have hany : ∀ w, Matches CharClass.admits [.globStar] w := fun w => ⟨w, [], by simp, trivial, rfl⟩
  have hslash : slashed "/".toList = ['/'] := rfl
  -- What is matched before the `**` is there in the longer path too.
  split at htext
  · rename_i hfull
    refine ⟨u, v ++ slashed rest.toList, ?_, hu, hany _⟩
    rw [if_pos hfull, String.toList_append, slashed_append, htext, List.append_assoc]
  · rw [String.toList_append, slashed_append, hslash, lastSegment_snoc_slash] at htext
    obtain ⟨rfl, -⟩ := List.append_eq_nil_iff.1 htext.symm
    exact ⟨[], _, rfl, hu, hany _⟩

end Glob

namespace Workspace

variable {workspace : Workspace} {tree : Tree}

/-! ### Ignoring what is below -/

theorem coversBelow_of_mem_defaultExcludes :
    ∀ raw ∈ defaultExcludes, Glob.CoversBelow raw := by
  intro raw hraw
  refine Glob.coversBelow_of_globStar ?_
  rcases List.mem_cons.1 hraw with rfl | hraw
  · cbv
  · obtain rfl := List.mem_singleton.1 hraw
    cbv

variable {path : Path} {settings : Settings}

/-- What lies below a pruned directory is ignored, where the patterns of the settings cover what is below
and the root does not lie in the directory. -/
theorem isIgnored_of_prunes {root : Path} (hroot : root.isAbsolute = true)
    (hcovers : ∀ raw ∈ settings.ignore, Glob.CoversBelow raw) {directory rest : Address}
    (hnames : ∀ s ∈ directory ++ rest, Path.IsName s) (hrest : rest ≠ [])
    (hout : ¬ directory <+: root.toAddress)
    (hprunes : (ofSettings root settings).prunes (.ofAddress directory) = true) :
    (ofSettings root settings).isIgnored (.ofAddress (directory ++ rest)) = true := by
  have hset : ∀ {raws : List String} {label text : String}, (∀ raw ∈ raws, Glob.CoversBelow raw) →
      (Glob.PatternSet.ofList raws).matches (label ++ "/") = true →
      (Glob.PatternSet.ofList raws).matches (label ++ "/" ++ text) = true := by
    intro raws label text hraws hmatch
    obtain ⟨raw, hraw, hmatch⟩ := Glob.PatternSet.matches_ofList.1 hmatch
    exact Glob.PatternSet.matches_ofList.2 ⟨raw, hraw, hraws raw hraw _ _ hmatch⟩
  obtain ⟨text, hlabel⟩ :=
    exists_label_below (root_ofSettings hroot settings) (fun _ => Path.isName_of_mem_toAddress) hnames hrest hout
  rw [isIgnored, hlabel, ignoresLabel, Bool.or_eq_true]
  rw [prunes, ignoresLabel, Bool.or_eq_true] at hprunes
  exact hprunes.imp (hset coversBelow_of_mem_defaultExcludes) (hset hcovers)

/-! ### What a directory stands for -/

/-- Whether a pruned directory lies on the way from a directory down to what stands below it. -/
def PrunedBetween (workspace : Workspace) (directory address : Address) : Prop :=
  ∃ between, directory <+: between ∧ directory ≠ between ∧ between <+: address ∧ between ≠ address ∧
    workspace.prunes (.ofAddress between) = true

/-- Whether a path spells out a file below a directory that is not ignored. -/
def UnignoredBelow (workspace : Workspace) (tree : Tree) (directory : Address) (file : Path) : Prop :=
  ∃ address, file = .ofAddress address ∧ tree.FileBelow directory address ∧
    workspace.isIgnored file = false

theorem mem_firstOccurrences {α : Type} [DecidableEq α] {l : List α} {a : α} :
    a ∈ firstOccurrences l ↔ a ∈ l := by
  induction l with
  | nil => rfl
  | cons b l ih =>
    rw [firstOccurrences, List.mem_cons, List.mem_cons, List.mem_filter, ih]
    by_cases h : a = b <;> simp [h]

theorem not_prunedBetween_iff {directory address : Address} :
    ¬ workspace.PrunedBetween directory address ↔ ∀ between, directory <+: between → directory ≠ between →
      between <+: address → between ≠ address → workspace.prunes (.ofAddress between) = false := by
  simp only [PrunedBetween, not_exists, not_and, Bool.not_eq_true]

theorem mem_filesBelow_iff {directory : Address} {file : Path} :
    file ∈ workspace.filesBelow tree directory ↔
      ∃ address, file = .ofAddress address ∧ tree.FileBelow directory address ∧
        workspace.isIgnored file = false ∧ ¬ workspace.PrunedBetween directory address := by
  rw [filesBelow, List.mem_filter, List.mem_map, Bool.not_eq_true']
  simp only [Tree.mem_filesBelow_iff, not_prunedBetween_iff]
  constructor
  · rintro ⟨⟨address, ⟨hfile, hpruned⟩, rfl⟩, hignored⟩
    exact ⟨address, rfl, hfile, hignored, hpruned⟩
  · rintro ⟨address, rfl, hfile, hignored, hpruned⟩
    exact ⟨⟨address, ⟨hfile, hpruned⟩, rfl⟩, hignored⟩

/-- A directory stands for the files below it. -/
theorem collect_directory (h : tree.isDirectory (workspace.absolute path) = true) :
    workspace.collect tree [path] =
      .ok (firstOccurrences (workspace.filesBelow tree (workspace.absolute path).toAddress)) := by
  have hfiles : workspace.filesAt tree path =
      .ok (workspace.filesBelow tree (workspace.absolute path).toAddress) := by
    rw [Tree.isDirectory, Tree.find?] at h
    rw [filesAt]
    cases hlocate : tree.locate (workspace.absolute path) with
    | error fault =>
      rw [hlocate] at h
      cases h
    | ok address =>
      rw [hlocate] at h
      rw [(Tree.toAddress_of_locate hlocate).2]
      simp only at h ⊢
      split at h
      · rename_i hitem
        rw [hitem]
      · cases h
  rw [collect, List.mapM_cons, hfiles]
  show Except.ok (firstOccurrences ([_] : List (List Path)).flatten) = _
  rw [List.flatten_singleton]

/-- What a directory stands for: the files below it that are not ignored, but for those that a pruned
directory lies on the way to. So pruning loses nothing exactly when all of these are ignored. That is so
if every pattern of the settings that matches a directory with a slash at its end matches what is below,
as patterns that end with `**` do, and the directory does not lie above the root. -/
theorem collect_directory_iff {root : Path} (hroot : root.isAbsolute = true)
    (hdirectory : tree.isDirectory ((ofSettings root settings).absolute path) = true) :
    let workspace := ofSettings root settings
    let directory := (workspace.absolute path).toAddress
    ∃ files, workspace.collect tree [path] = .ok files ∧ files.Nodup ∧
      (∀ file, file ∈ files ↔ ∃ address, file = .ofAddress address ∧
        tree.FileBelow directory address ∧ workspace.isIgnored file = false ∧
          ¬ workspace.PrunedBetween directory address) ∧
      ((∀ file, file ∈ files ↔ workspace.UnignoredBelow tree directory file) ↔
        ∀ address, tree.FileBelow directory address → workspace.PrunedBetween directory address →
          workspace.isIgnored (.ofAddress address) = true) ∧
      ((∀ raw ∈ settings.ignore, Glob.CoversBelow raw) →
        (∀ between address, tree.FileBelow between address → ¬ between <+: root.toAddress →
          workspace.prunes (.ofAddress between) = true →
            workspace.isIgnored (.ofAddress address) = true) ∧
          (directory = root.toAddress ∨ ¬ directory <+: root.toAddress →
            ∀ file, file ∈ files ↔ workspace.UnignoredBelow tree directory file)) := by
  intro workspace directory
  have hmem : ∀ file, file ∈ firstOccurrences (workspace.filesBelow tree directory) ↔
      ∃ address, file = .ofAddress address ∧ tree.FileBelow directory address ∧
        workspace.isIgnored file = false ∧ ¬ workspace.PrunedBetween directory address :=
    fun file => mem_firstOccurrences.trans mem_filesBelow_iff
  have hlossless : (∀ file, file ∈ firstOccurrences (workspace.filesBelow tree directory) ↔
        workspace.UnignoredBelow tree directory file) ↔
      ∀ address, tree.FileBelow directory address → workspace.PrunedBetween directory address →
        workspace.isIgnored (.ofAddress address) = true := by
    simp only [hmem]
    constructor
    · intro h address hfile hpruned
      rw [← Bool.not_eq_false]
      intro hignored
      obtain ⟨address', heq, hfile', -, hnot⟩ := (h _).2 ⟨address, rfl, hfile, hignored⟩
      obtain ⟨-, -, content, hitem⟩ := hfile
      obtain ⟨-, -, content', hitem'⟩ := hfile'
      obtain rfl := Path.ofAddress_injective (Tree.isName_of_item? hitem) (Tree.isName_of_item? hitem') heq
      exact hnot hpruned
    · intro h file
      constructor
      · rintro ⟨address, rfl, hfile, hignored, -⟩
        exact ⟨address, rfl, hfile, hignored⟩
      · rintro ⟨address, rfl, hfile, hignored⟩
        refine ⟨address, rfl, hfile, hignored, fun hpruned => ?_⟩
        rw [h address hfile hpruned] at hignored
        cases hignored
  have hbelow : (∀ raw ∈ settings.ignore, Glob.CoversBelow raw) → ∀ between address,
      tree.FileBelow between address → ¬ between <+: root.toAddress →
        workspace.prunes (.ofAddress between) = true →
          workspace.isIgnored (.ofAddress address) = true := by
    rintro hcovers between address ⟨⟨rest, rfl⟩, hne, content, hitem⟩ hout hprunes
    refine isIgnored_of_prunes hroot hcovers (Tree.isName_of_item? hitem) ?_ hout hprunes
    rintro rfl
    exact hne (List.append_nil between).symm
  refine ⟨_, collect_directory hdirectory, nodup_firstOccurrences _, hmem, hlossless, fun hcovers => ?_⟩
  refine ⟨hbelow hcovers, fun hplace => hlossless.2 ?_⟩
  rintro address ⟨hfrom, hne, content, hitem⟩ ⟨between, hstart, hnot, hto, hend, hprunes⟩
  refine hbelow hcovers between address ⟨hto, hend, content, hitem⟩ (fun habove => ?_) hprunes
  rcases hplace with hplace | hplace
  · exact hnot (hstart.eq_of_length_le (hplace ▸ habove.length_le))
  · exact hplace (hstart.trans habove)

/-- A file in the root and a file two directories below it. -/
def nested : Tree :=
  ([["w"], ["w", "src"], ["w", "src", "deep"]].foldl (·.set · .directory) Tree.empty).set
    ["w", "src", "deep", "a"] (.file "a".toUTF8) |>.set ["w", "b"] (.file "b".toUTF8)

/-- The settings with a pattern for what is ignored. -/
def ignoring (raw : String) : Settings :=
  { ignore := [raw] }

/-- With `src/**`, pruning loses nothing. -/
theorem collect_below_src :
    (⟨"/w"⟩ : Path).isAbsolute = true ∧
      nested.isDirectory ((ofSettings ⟨"/w"⟩ (ignoring "src/**")).absolute ⟨"."⟩) = true ∧
      ∀ file, file ∈ [(⟨"/w/b"⟩ : Path)] ↔
        (ofSettings ⟨"/w"⟩ (ignoring "src/**")).UnignoredBelow nested ["w"] file := by
  have hroot : (⟨"/w"⟩ : Path).isAbsolute = true := by decide
  have hdirectory : nested.isDirectory ((ofSettings ⟨"/w"⟩ (ignoring "src/**")).absolute ⟨"."⟩) = true := by
    decide +kernel
  have hcovers : ∀ raw ∈ (ignoring "src/**").ignore, Glob.CoversBelow raw := by
    intro raw hraw
    obtain rfl := List.mem_singleton.1 hraw
    exact Glob.coversBelow_of_globStar (by cbv)
  obtain ⟨files, hfiles, -, -, -, hlossless⟩ := collect_directory_iff hroot hdirectory
  have hcollect : (ofSettings ⟨"/w"⟩ (ignoring "src/**")).collect nested [⟨"."⟩] = .ok [⟨"/w/b"⟩] := by
    decide +kernel
  have hw : ((ofSettings ⟨"/w"⟩ (ignoring "src/**")).absolute ⟨"."⟩).toAddress = ["w"] := by decide +kernel
  rw [hfiles] at hcollect
  obtain rfl := Except.ok.inj hcollect
  have hsame := (hlossless hcovers).2 (Or.inl (by decide +kernel))
  rw [hw] at hsame
  exact ⟨hroot, hdirectory, hsame⟩

/-- With `src/*`, a file is lost that the pattern does not match: the star matches the empty name after the
slash, so `src` is pruned. -/
theorem collect_passes_over_deep :
    (ofSettings ⟨"/w"⟩ (ignoring "src/*")).collect nested [⟨"/w"⟩] = .ok [⟨"/w/b"⟩] ∧
      (ofSettings ⟨"/w"⟩ (ignoring "src/*")).UnignoredBelow nested ["w"] ⟨"/w/src/deep/a"⟩ ∧
      (ofSettings ⟨"/w"⟩ (ignoring "src/*")).collect nested [⟨"/w/src/deep/a"⟩] =
        .ok [⟨"/w/src/deep/a"⟩] := by
  refine ⟨by decide +kernel, ⟨["w", "src", "deep", "a"], by decide, ⟨?_, by decide, "a".toUTF8, ?_⟩, ?_⟩, ?_⟩
  · exact ⟨["src", "deep", "a"], rfl⟩
  · decide +kernel
  · decide +kernel
  · decide +kernel

end Workspace

end LineEndings

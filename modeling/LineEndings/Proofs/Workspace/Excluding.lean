/-
What is excluded by default.

The default patterns are two, a name and what is below it, at the top of the label or after any slash. Together
they match a label when some segment of it but the last is one of the names (`matches_defaultExcludes_iff`). A
directory is asked about with a slash after its label, which makes its own segment one that is not the last.

* `isIgnored_default_iff` — without patterns of its own, a workspace ignores what lies in a directory of one of the
  names, and nothing else.
-/
import LineEndings.Proofs.Glob.Quoting
import LineEndings.Proofs.Workspace.Pruning

namespace LineEndings

/-! ### Names, and what is below them -/

namespace Glob

variable {reading : Reading} {names : List String} {s : List Char}

/-- The tokens of some names, any of which may be there. -/
def anyOf (names : List String) : Token :=
  .group (names.map fun name => name.toList.map .literal)

theorem matches_anyOf_iff : (anyOf names).Matches reading s ↔ ∃ name ∈ names, s = name.toList := by
  simp only [anyOf, Token.Matches, someBranch_iff, List.mem_map]
  constructor
  · rintro ⟨_, ⟨name, hname, rfl⟩, hmatch⟩
    exact ⟨name, hname, matches_literals_iff.1 hmatch⟩
  · rintro ⟨name, hname, rfl⟩
    exact ⟨_, ⟨name, hname, rfl⟩, matches_literals_iff.2 rfl⟩

/-- One of the names, and anything after a slash. -/
theorem matches_below_iff :
    Matches reading [anyOf names, .literal '/', .globStar] s ↔
      ∃ name ∈ names, ∃ tail, s = name.toList ++ '/' :: tail := by
  constructor
  · rintro ⟨u, v, rfl, hname, _, w, rfl, rfl, tail, _, rfl, -, rfl⟩
    obtain ⟨name, hmem, rfl⟩ := matches_anyOf_iff.1 hname
    exact ⟨name, hmem, tail, by simp⟩
  · rintro ⟨name, hmem, tail, rfl⟩
    exact ⟨_, _, rfl, matches_anyOf_iff.2 ⟨name, hmem, rfl⟩, ['/'], tail, rfl, rfl, tail, [], by simp, trivial, rfl⟩

/-- The same after any slash. -/
theorem matches_anywhere_below_iff :
    Matches reading [.globStar, .literal '/', anyOf names, .literal '/', .globStar] s ↔
      ∃ name ∈ names, ∃ front tail, s = front ++ '/' :: (name.toList ++ '/' :: tail) := by
  constructor
  · rintro ⟨front, v, rfl, -, _, w, rfl, rfl, hrest⟩
    obtain ⟨name, hmem, tail, rfl⟩ := matches_below_iff.1 hrest
    exact ⟨name, hmem, front, tail, rfl⟩
  · rintro ⟨name, hmem, front, tail, rfl⟩
    exact ⟨front, _, rfl, trivial, ['/'], _, rfl, rfl, matches_below_iff.2 ⟨name, hmem, tail, rfl⟩⟩

end Glob

namespace Workspace

/-- The names of directories that nothing is worked on in. -/
def excludedNames : List String :=
  ["node_modules", ".git", "dist", "build", "out"]

/-- A label cut at its slashes. -/
def segments (label : String) : List String :=
  (Text.pieces '/' label.toList).map String.ofList

theorem tokensOf_defaultExcludes :
    defaultExcludes.map Glob.tokensOf =
      [[Glob.anyOf excludedNames, .literal '/', .globStar],
        [.globStar, .literal '/', Glob.anyOf excludedNames, .literal '/', .globStar]] := by
  cbv

/-- The default patterns are compared with whole labels. -/
theorem slash_mem_of_mem_defaultExcludes : ∀ raw ∈ defaultExcludes, '/' ∈ Text.trim raw.toList := by
  decide +kernel

theorem isName_of_mem_excludedNames : ∀ name ∈ excludedNames, Path.IsName name := by
  decide

/-- The segments of a label but the last. -/
theorem mem_dropLast_segments_iff {label name : String} (hname : '/' ∉ name.toList) :
    name ∈ (segments label).dropLast ↔ ∃ tail, label.toList = name.toList ++ '/' :: tail ∨
      ∃ front, label.toList = front ++ '/' :: (name.toList ++ '/' :: tail) := by
  have hmem : name ∈ (segments label).dropLast ↔ name.toList ∈ (Text.pieces '/' label.toList).dropLast := by
    rw [segments, ← List.map_dropLast, List.mem_map]
    constructor
    · rintro ⟨piece, hpiece, rfl⟩
      rwa [String.toList_ofList]
    · exact fun h => ⟨name.toList, h, String.ofList_toList⟩
  rw [hmem, Text.mem_dropLast_pieces_iff]
  exact and_iff_right hname

/-- The default patterns match what has one of the names for a segment that is not the last. -/
theorem matches_defaultExcludes_iff {label : String} (hlabel : '\\' ∉ label.toList) :
    (Glob.PatternSet.ofList defaultExcludes).matches label = true ↔
      ∃ name ∈ (segments label).dropLast, name ∈ excludedNames := by
  have hraw (raw) (hmem : raw ∈ defaultExcludes) : (Glob.Pattern.compile raw).matches label = true ↔
      Glob.Matches Glob.CharClass.admits (Glob.tokensOf raw) label.toList := by
    have hslash := slash_mem_of_mem_defaultExcludes raw hmem
    rw [Glob.matches_compile_iff (List.ne_nil_of_mem hslash), Glob.target_compile, if_pos hslash,
      Glob.slashed_of_not_mem hlabel]
  have htokens : (Glob.PatternSet.ofList defaultExcludes).matches label = true ↔
      ∃ tokens ∈ defaultExcludes.map Glob.tokensOf, Glob.Matches Glob.CharClass.admits tokens label.toList := by
    rw [Glob.PatternSet.matches_ofList]
    constructor
    · rintro ⟨raw, hmem, hmatch⟩
      exact ⟨_, List.mem_map.2 ⟨raw, hmem, rfl⟩, (hraw raw hmem).1 hmatch⟩
    · rintro ⟨tokens, htokens, hmatch⟩
      obtain ⟨raw, hmem, rfl⟩ := List.mem_map.1 htokens
      exact ⟨raw, hmem, (hraw raw hmem).2 hmatch⟩
  rw [htokens, tokensOf_defaultExcludes]
  simp only [List.mem_cons, List.not_mem_nil, or_false, exists_eq_or_imp, exists_eq_left,
    Glob.matches_below_iff, Glob.matches_anywhere_below_iff]
  constructor
  · rintro (⟨name, hname, tail, h⟩ | ⟨name, hname, front, tail, h⟩)
    · have hsegment := (isName_of_mem_excludedNames name hname).2.2.2
      exact ⟨name, (mem_dropLast_segments_iff hsegment).2 ⟨tail, Or.inl h⟩, hname⟩
    · have hsegment := (isName_of_mem_excludedNames name hname).2.2.2
      exact ⟨name, (mem_dropLast_segments_iff hsegment).2 ⟨tail, Or.inr ⟨front, h⟩⟩, hname⟩
  · rintro ⟨name, hmem, hname⟩
    have hsegment := (isName_of_mem_excludedNames name hname).2.2.2
    obtain ⟨tail, h | ⟨front, h⟩⟩ := (mem_dropLast_segments_iff hsegment).1 hmem
    · exact Or.inl ⟨name, hname, tail, h⟩
    · exact Or.inr ⟨name, hname, front, tail, h⟩

/-! ### Labels of a workspace -/

theorem escape_notMem_label (workspace : Workspace) (path : Path) : '\\' ∉ (workspace.label path).toList := by
  rw [label, String.toList_ofList]
  exact Glob.escape_notMem_slashed _

theorem segments_append_slash (label : String) : segments (label ++ "/") = segments label ++ [""] := by
  have htext : (label ++ "/").toList = label.toList ++ ['/'] := String.toList_append
  rw [segments, htext, Text.pieces_snoc_sep, List.map_append]
  rfl

/-- The label of what stands in the root is cut into the names on the way to it. -/
theorem segments_label_inside {workspace : Workspace} {root names : Address}
    (hroot : workspace.root = .ofAddress root) (hnames : ∀ s ∈ root ++ names, Path.IsName s)
    (hplain : ∀ s ∈ names, '\\' ∉ s.toList) (hne : names ≠ []) :
    segments (workspace.label (.ofAddress (root ++ names))) = names := by
  have hbelow : '\\' ∉ Text.joined '/' (names.map String.toList) := by
    intro hmem
    rcases Text.mem_joined hmem with hc | ⟨piece, hpiece, hc⟩
    · exact absurd hc (by decide)
    · obtain ⟨s, hs, rfl⟩ := List.mem_map.1 hpiece
      exact hplain s hs hc
  rw [label_inside hroot hnames, Glob.slashed_of_not_mem hbelow, segments, String.toList_ofList,
    Path.pieces_joined_names hne fun s hs => hnames s (List.mem_append_right _ hs), List.map_map]
  exact (List.map_congr_left fun s _ => String.ofList_toList).trans (List.map_id names)

section

variable {root : Path} {settings : Settings}

/-- Without patterns of its own, a workspace is left with the default ones. -/
theorem ignoresLabel_iff (hignore : settings.ignore = []) {label : String} (hlabel : '\\' ∉ label.toList) :
    (ofSettings root settings).ignoresLabel label = true ↔
      ∃ name ∈ (segments label).dropLast, name ∈ excludedNames := by
  have hnone : (ofSettings root settings).ignore.matches label = false := by
    show (Glob.PatternSet.ofList settings.ignore).matches label = false
    rw [hignore]
    rfl
  rw [ignoresLabel, hnone, Bool.or_false]
  exact matches_defaultExcludes_iff hlabel

theorem isIgnored_iff_segments (hignore : settings.ignore = []) (path : Path) :
    (ofSettings root settings).isIgnored path = true ↔
      ∃ name ∈ (segments ((ofSettings root settings).label path)).dropLast, name ∈ excludedNames :=
  ignoresLabel_iff hignore (escape_notMem_label _ path)

theorem prunes_iff_segments (hignore : settings.ignore = []) (directory : Path) :
    (ofSettings root settings).prunes directory = true ↔
      ∃ name ∈ segments ((ofSettings root settings).label directory), name ∈ excludedNames := by
  have hlabel : '\\' ∉ ((ofSettings root settings).label directory ++ "/").toList := by
    simp [String.toList_append, escape_notMem_label]
  rw [prunes, ignoresLabel_iff hignore hlabel, segments_append_slash, List.dropLast_concat]

/-- In the root, the segments of a label are the names on the way to the file. -/
theorem isIgnored_inside_iff (hroot : root.isAbsolute = true) (hignore : settings.ignore = []) {names : Address}
    (hnames : ∀ s ∈ names, Path.IsName s ∧ '\\' ∉ s.toList) :
    ((ofSettings root settings).isIgnored (.ofAddress (root.toAddress ++ names)) = true ↔
        ∃ name ∈ names.dropLast, name ∈ excludedNames) ∧
      ((ofSettings root settings).prunes (.ofAddress (root.toAddress ++ names)) = true ↔
        ∃ name ∈ names, name ∈ excludedNames) := by
  have hplace := root_ofSettings hroot settings
  have hall : ∀ s ∈ root.toAddress ++ names, Path.IsName s :=
    List.forall_mem_append.2 ⟨fun _ => Path.isName_of_mem_toAddress, fun s hs => (hnames s hs).1⟩
  rw [isIgnored_iff_segments hignore, prunes_iff_segments hignore]
  by_cases hempty : names = []
  · -- The label of the root is one empty segment.
    subst hempty
    rw [label_inside hplace hall]
    decide
  · rw [segments_label_inside hplace hall (fun s hs => (hnames s hs).2) hempty]
    exact ⟨Iff.rfl, Iff.rfl⟩

/-- The root itself is not pruned. -/
theorem prunes_root (hroot : root.isAbsolute = true) (hignore : settings.ignore = []) :
    (ofSettings root settings).prunes (.ofAddress root.toAddress) = false := by
  have hnone := (isIgnored_inside_iff hroot hignore (List.forall_mem_nil _)).2
  rw [List.append_nil] at hnone
  rw [Bool.eq_false_iff, ne_eq, hnone]
  simp

/-- What lies below a pruned directory of the root is ignored. -/
theorem isIgnored_below_pruned (hroot : root.isAbsolute = true) (hignore : settings.ignore = [])
    {directory rest : Address} (hnames : ∀ s ∈ directory ++ rest, Path.IsName s) (hrest : rest ≠ [])
    (hinside : root.toAddress <+: directory)
    (hprunes : (ofSettings root settings).prunes (.ofAddress directory) = true) :
    (ofSettings root settings).isIgnored (.ofAddress (directory ++ rest)) = true := by
  refine isIgnored_of_prunes hroot (by simp [hignore]) hnames hrest (fun hlies => ?_) hprunes
  rw [← hinside.eq_of_length_le hlies.length_le, prunes_root hroot hignore] at hprunes
  cases hprunes

end

/-- Without patterns of its own, a workspace ignores a path when some segment of its label but the last is one of
the excluded names, and prunes a directory when any is. So inside the root, by the names on the way there, a file
is ignored when it lies in a directory of such a name, whatever its own name, and other directories are walked
through; and what lies below a pruned directory of the root is ignored. -/
theorem isIgnored_default_iff {root : Path} {settings : Settings} (hroot : root.isAbsolute = true)
    (hignore : settings.ignore = []) :
    let workspace := ofSettings root settings
    (∀ path, workspace.isIgnored path = true ↔
      ∃ name ∈ (segments (workspace.label path)).dropLast, name ∈ excludedNames) ∧
    (∀ directory, workspace.prunes directory = true ↔
      ∃ name ∈ segments (workspace.label directory), name ∈ excludedNames) ∧
    (∀ names : Address, (∀ s ∈ names, Path.IsName s ∧ '\\' ∉ s.toList) →
      (workspace.isIgnored (.ofAddress (root.toAddress ++ names)) = true ↔
        ∃ name ∈ names.dropLast, name ∈ excludedNames) ∧
      (workspace.prunes (.ofAddress (root.toAddress ++ names)) = true ↔
        ∃ name ∈ names, name ∈ excludedNames)) ∧
    ∀ directory file, root.toAddress <+: (workspace.absolute directory).toAddress →
      (workspace.absolute directory).toAddress <+: (workspace.absolute file).toAddress →
      workspace.absolute directory ≠ workspace.absolute file →
      workspace.prunes directory = true → workspace.isIgnored file = true := by
  intro workspace
  refine ⟨isIgnored_iff_segments hignore, prunes_iff_segments hignore,
    fun names => isIgnored_inside_iff hroot hignore, fun directory file hinside hbelow hne hprunes => ?_⟩
  obtain ⟨above, habove, hdirectory⟩ := exists_absolute_eq (isAbsolute_root hroot settings) directory
  obtain ⟨address, haddress, hfile⟩ := exists_absolute_eq (isAbsolute_root hroot settings) file
  rw [hdirectory, Path.toAddress_ofAddress habove] at hinside hbelow
  rw [hfile, Path.toAddress_ofAddress haddress] at hbelow
  rw [hdirectory, hfile] at hne
  rw [prunes_congr (hdirectory.trans (absolute_ofAddress habove).symm)] at hprunes
  rw [isIgnored_congr (hfile.trans (absolute_ofAddress haddress).symm)]
  obtain ⟨rest, rfl⟩ := hbelow
  have hrest : rest ≠ [] := by
    rintro rfl
    exact hne (by rw [List.append_nil])
  exact isIgnored_below_pruned hroot hignore haddress hrest hinside hprunes

/-- A name after a backslash is a segment of the label like any other; names that only look alike are not excluded,
nor is a file of one of the names; and what lies deeper in an excluded directory is ignored. -/
theorem isIgnored_default_packages :
    (⟨"/w"⟩ : Path).isAbsolute = true ∧ ({} : Settings).ignore = [] ∧
      (ofSettings ⟨"/w"⟩ {}).isIgnored ⟨"./packages\\dist/a"⟩ = true ∧
      (ofSettings ⟨"/w"⟩ {}).isIgnored ⟨"/w/mydist/build2/build"⟩ = false ∧
      (ofSettings ⟨"/w"⟩ {}).prunes ⟨"packages/dist"⟩ = true ∧
      (ofSettings ⟨"/w"⟩ {}).isIgnored ⟨"packages/x/../dist/deep/a"⟩ = true := by
  have hroot : (⟨"/w"⟩ : Path).isAbsolute = true := by decide
  obtain ⟨hignored, hpruned, hinside, hbelow⟩ := isIgnored_default_iff hroot (rfl : ({} : Settings).ignore = [])
  have hdist : (ofSettings ⟨"/w"⟩ {}).prunes ⟨"packages/dist"⟩ = true := by
    rw [hpruned]
    decide +kernel
  have hbuild := hinside ["mydist", "build2", "build"] (by decide)
  refine ⟨hroot, rfl, (hignored _).2 (by decide +kernel), ?_, hdist, ?_⟩
  · have hplace : Path.ofAddress ((⟨"/w"⟩ : Path).toAddress ++ ["mydist", "build2", "build"]) =
        ⟨"/w/mydist/build2/build"⟩ := by decide +kernel
    rw [← hplace, Bool.eq_false_iff, ne_eq, hbuild.1]
    decide
  · exact hbelow ⟨"packages/dist"⟩ _ (by decide +kernel) (by decide +kernel) (by decide +kernel) hdist

end Workspace

end LineEndings

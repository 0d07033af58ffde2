/-
The directories whose properties files are heard.

A file is loaded from a directory above the normal form of the target, and its sections are matched with the
names that lead from there to the target. The normal form of a relative path may go up before it goes down,
and then the way from a directory to the target may still go up; the label of the target leaves that out
(`label?_upAndDown`). So a directory need not contain the target:

* `leadsTo_of_mem_load` — every loaded file stands in a directory from which some steps up and then some
  names lead to the target, and is read for these names;
* `load_below_iff` — there are no steps up, whatever the files, for the targets whose normal form does not
  go up and then down, and for no other targets.
-/
import LineEndings.Proofs.Path.Above
import LineEndings.Proofs.Property.Precedence

namespace LineEndings

namespace Path

/-- The end of a way up and then down goes up and then down. -/
theorem eq_upAndDown_of_append {front rest : List Component} {up : Nat} {names : Address}
    (h : upAndDown up names = front ++ rest) :
    ∃ up' names', rest = upAndDown up' names' ∧ ∀ s ∈ names', s ∈ names := by
  rcases List.append_eq_append_iff.1 h with ⟨middle, -, hnames⟩ | ⟨middle, hup, rfl⟩
  · obtain ⟨names₁, names₂, rfl, -, rfl⟩ := List.map_eq_append_iff.1 hnames
    exact ⟨0, names₂, rfl, fun s hs => List.mem_append_right _ hs⟩
  · obtain ⟨-, -, hmiddle⟩ := List.replicate_eq_append_iff.1 hup
    exact ⟨middle.length, names, by rw [upAndDown, ← hmiddle], fun _ => id⟩

theorem label?_cons_parent (components : List Component) :
    label? (.parent :: components) = label? components := by
  rw [label?, label?, List.filterMap_cons_none rfl]

theorem label?_upAndDown (up : Nat) (names : Address) :
    label? (upAndDown up names) = label? (names.map .name) := by
  induction up with
  | zero => rfl
  | succ up ih =>
    rw [upAndDown, List.replicate_succ, List.cons_append, label?_cons_parent]
    exact ih

/-- Past a directory above it, an absolute normal form goes down, a relative one up and then down. -/
theorem exists_normalize_eq_append {target directory top : Path} (htop : target.normalize.parent? = some top)
    (h : directory ∈ top.ancestors) :
    ∃ up names, (∀ s ∈ names, IsName s) ∧
      target.normalize.components = directory.components ++ upAndDown up names := by
  obtain ⟨component, -, hcomponent⟩ := components_of_parent? htop
  obtain ⟨rest, hrest⟩ := exists_of_mem_ancestors h
  rw [hrest, List.append_assoc] at hcomponent
  cases habsolute : target.isAbsolute with
  | true =>
    -- The directory has the slash at the start, so it is not in what follows.
    have hdirectory : directory.isAbsolute = true := by
      rw [isAbsolute_of_mem_ancestors h, isAbsolute_of_parent? htop, normalize_of_absolute habsolute,
        isAbsolute_ofAddress]
    obtain ⟨below, hbelow, -⟩ := components_of_absolute hdirectory
    have hnames : ∀ s ∈ target.toAddress, IsName s := fun s => isName_of_mem_toAddress
    have hnormal : target.normalize.components = .root :: upAndDown 0 target.toAddress := by
      rw [normalize_of_absolute habsolute, components_ofAddress hnames, upAndDown_zero]
    rw [hnormal, hbelow, List.cons_append, List.cons_inj_right] at hcomponent
    obtain ⟨up, names, hrest', hnames'⟩ := eq_upAndDown_of_append hcomponent
    exact ⟨up, names, fun s hs => hnames s (hnames' s hs), by
      rw [hnormal, hcomponent, hbelow, hrest', List.cons_append]⟩
  | false =>
    obtain ⟨up, names, hnames, hnormal⟩ := exists_components_normalize habsolute
    obtain ⟨up', names', hrest', hnames'⟩ := eq_upAndDown_of_append (hnormal.symm.trans hcomponent)
    exact ⟨up', names', fun s hs => hnames s (hnames' s hs), by rw [hcomponent, hrest']⟩

end Path

namespace Property

namespace Resolver

variable {resolver : Resolver} {target : Path} {loaded : LoadedSource}

/-- Whether a loaded file stands in a directory from which a number of steps up and then names lead to the
target, and is read for these names. -/
def LeadsTo (resolver : Resolver) (target : Path) (up : Nat) (loaded : LoadedSource) : Prop :=
  ∃ (directory : Path) (names : Address), names ≠ [] ∧ (∀ s ∈ names, Path.IsName s) ∧
    loaded.path = directory.join ⟨resolver.fileName⟩ ∧
    target.normalize.components = directory.components ++ Path.upAndDown up names ∧
    ∃ contents, resolver.files.read loaded.path = .ok contents ∧
      loaded.source = .read resolver.schema (spelled names) contents

theorem of_mem_loadAll {paths : List Path} (h : loaded ∈ resolver.loadAll target paths) :
    loaded.path ∈ paths ∧ ∃ contents label, resolver.files.read loaded.path = .ok contents ∧
      labelFrom? loaded.path target = some label ∧
        loaded.source = .read resolver.schema label contents := by
  induction paths with
  | nil => cases h
  | cons path paths ih =>
    rw [loadAll] at h
    split at h
    · rename_i contents label hread hlabel
      rcases List.mem_cons.1 h with rfl | h
      · exact ⟨List.mem_cons_self, contents, label, hread, hlabel, rfl⟩
      · split at h
        · cases h
        · exact (ih h).imp_left (List.mem_cons_of_mem _)
    · exact (ih h).imp_left (List.mem_cons_of_mem _)

/-- What is looked for stands in directories above the normal form of the target. -/
theorem mem_discover_iff {path : Path} :
    path ∈ resolver.discover target ↔ resolver.files.isFile path = true ∧
      ∃ top, target.normalize.parent? = some top ∧
        ∃ directory ∈ top.ancestors, path = directory.join ⟨resolver.fileName⟩ := by
  unfold discover
  generalize target.normalize.parent? = top?
  cases top? with
  | none => simp
  | some top =>
    show path ∈ List.filter _ (List.map _ _) ↔ _
    rw [List.mem_filter, List.mem_map, and_comm]
    refine and_congr_right fun _ => ?_
    simp only [Option.some_inj, exists_eq_left', eq_comm]

/-- Seen from a directory, the label of the target leaves the steps up out. -/
theorem labelFrom?_join {directory : Path} {name : String} (hname : Path.IsName name) {up : Nat}
    {names : Address} (h : target.components = directory.components ++ Path.upAndDown up names) :
    labelFrom? (directory.join ⟨name⟩) target = Path.label? (names.map .name) := by
  have hfile := Path.components_join directory hname
  rw [labelFrom?, ← Path.label?_upAndDown up]
  cases hparent : (directory.join ⟨name⟩).parent? with
  | none =>
    have hlast := congrArg List.getLast? hfile
    rw [List.getLast?_concat] at hlast
    rcases Path.components_of_parent?_eq_none hparent with hnone | hnone
    · rw [hnone] at hlast
      cases hlast
    · rw [hnone] at hlast
      cases hlast
  | some parent =>
    obtain ⟨component, -, hcomponent⟩ := Path.components_of_parent? hparent
    have hparent : parent.components = directory.components :=
      List.append_inj_left' (hcomponent.symm.trans hfile) rfl
    rw [← hparent, ← Path.after?_eq_some_iff] at h
    rw [Option.bind_some, h, Option.bind_some]

/-- From the directory of every loaded file, some steps up and then some names lead to the target. -/
theorem leadsTo_of_mem_load (hname : Path.IsName resolver.fileName) (h : loaded ∈ resolver.load target) :
    ∃ up, resolver.LeadsTo target up loaded := by
  obtain ⟨hpath, contents, label, hread, hlabel, hsource⟩ := of_mem_loadAll h
  obtain ⟨-, top, htop, directory, hdirectory, hpath⟩ := mem_discover_iff.1 hpath
  obtain ⟨up, names, hnames, hnormal⟩ := Path.exists_normalize_eq_append htop hdirectory
  rw [hpath, labelFrom?_join hname hnormal] at hlabel
  have hne : names ≠ [] := by
    rintro rfl
    cases hlabel
  rw [label?_names hne] at hlabel
  exact ⟨up, directory, names, hne, hnames, hpath, hnormal, contents, hread,
    by rw [hsource, Option.some.inj hlabel]⟩

/-! ### Targets that lie above -/

/-- A file in the directory that relative paths start from does not lie above what is reached by going up. -/
theorem not_leadsTo_of_path_eq (hname : Path.IsName resolver.fileName)
    (hpath : loaded.path.components = [.name resolver.fileName])
    (hup : .parent ∈ target.normalize.components) : ¬ resolver.LeadsTo target 0 loaded := by
  rintro ⟨directory, names, -, -, hjoin, hnormal, -⟩
  rw [hjoin, Path.components_join directory hname] at hpath
  have hdirectory : directory.components = [] := by simpa using hpath
  rw [hnormal, hdirectory] at hup
  simp [Path.upAndDown] at hup

/-- Files everywhere, all of them blank. -/
def blankEverywhere : Files where
  isFile _ := true
  read _ := .ok ""

/-- A file that is blank does not end the search. -/
theorem exists_mem_loadAll_blank (schema : Schema) (name : String) {paths : List Path} {path : Path}
    (h : path ∈ paths) {label : String} (hlabel : labelFrom? path target = some label) :
    ∃ loaded ∈ loadAll ⟨blankEverywhere, schema, name⟩ target paths, loaded.path = path := by
  induction paths with
  | nil => cases h
  | cons first paths ih =>
    have hblank : ∀ label, (Source.read schema label "").root = false := fun _ => rfl
    rcases List.mem_cons.1 h with rfl | h
    · exact ⟨⟨path, .read schema label ""⟩, by simp [loadAll, blankEverywhere, hlabel], rfl⟩
    · obtain ⟨loaded, hmem, hpath⟩ := ih h
      refine ⟨loaded, ?_, hpath⟩
      cases hfirst : labelFrom? first target with
      | none => simpa [loadAll, blankEverywhere, hfirst] using hmem
      | some label => simpa [loadAll, blankEverywhere, hfirst, hblank] using Or.inr hmem

/-- Whether the normal form of a path goes up, and then down to a name. -/
def GoesUp (target : Path) : Prop :=
  .parent ∈ target.normalize.components ∧ ∃ s, .name s ∈ target.normalize.components

theorem not_goesUp_of_absolute (h : target.isAbsolute = true) : ¬ GoesUp target := by
  rintro ⟨hup, -⟩
  rw [Path.normalize_of_absolute h, Path.components_ofAddress fun s => Path.isName_of_mem_toAddress] at hup
  simp at hup

/-- For a target that goes up there may be a file beside it that is heard. -/
theorem exists_not_leadsTo {name : String} (hname : Path.IsName name) (h : GoesUp target) (schema : Schema) :
    ∃ loaded ∈ load ⟨blankEverywhere, schema, name⟩ target,
      ¬ LeadsTo ⟨blankEverywhere, schema, name⟩ target 0 loaded := by
  obtain ⟨hup, s, hs⟩ := id h
  have hrelative : target.isAbsolute = false := by
    rw [← Bool.not_eq_true]
    exact fun habsolute => not_goesUp_of_absolute habsolute h
  obtain ⟨up, names, -, hnormal⟩ := Path.exists_components_normalize hrelative
  have hne : names ≠ [] := by
    rintro rfl
    rw [hnormal] at hs
    simp [Path.upAndDown] at hs
  obtain ⟨top, htop⟩ : ∃ top, target.normalize.parent? = some top := by
    rw [← Option.ne_none_iff_exists']
    intro hnone
    rcases Path.components_of_parent?_eq_none hnone with hcomponents | hcomponents
    · rw [hcomponents] at hup
      cases hup
    · rw [hcomponents] at hup
      simp at hup
  -- The directory that relative paths start from is the last above the target.
  have htopRelative : top.isAbsolute = false := by
    rw [Path.isAbsolute_of_parent? htop, ← Bool.not_eq_true, Path.isAbsolute_iff, hnormal]
    simp [Path.upAndDown]
  obtain ⟨directory, hdirectory, hempty⟩ := Path.exists_mem_ancestors_of_relative htopRelative
  have hmem : directory.join ⟨name⟩ ∈ discover ⟨blankEverywhere, schema, name⟩ target :=
    mem_discover_iff.2 ⟨rfl, top, htop, directory, hdirectory, rfl⟩
  have hlabel : labelFrom? (directory.join ⟨name⟩) target.normalize = some (spelled names) := by
    have hway : target.normalize.components = directory.components ++ Path.upAndDown up names := by
      rw [hempty, hnormal, List.nil_append]
    rw [labelFrom?_join hname hway, label?_names hne]
  obtain ⟨loaded, hloaded, hpath⟩ := exists_mem_loadAll_blank schema name hmem hlabel
  refine ⟨loaded, hloaded, not_leadsTo_of_path_eq hname ?_ hup⟩
  rw [hpath, Path.components_join directory hname, hempty]
  rfl

/-- From the directory of every loaded file steps up and then names lead to the target, and the file is read
for these names. There are no steps up, whatever files there are, unless the normal form of the target goes
up and then down to a name, which that of an absolute path does not. -/
theorem load_below_iff {name : String} (hname : Path.IsName name) (target : Path) :
    (∀ files schema, ∀ loaded ∈ load ⟨files, schema, name⟩ target,
        ∃ up, LeadsTo ⟨files, schema, name⟩ target up loaded) ∧
      ((∀ files schema, ∀ loaded ∈ load ⟨files, schema, name⟩ target,
        LeadsTo ⟨files, schema, name⟩ target 0 loaded) ↔ ¬ GoesUp target) ∧
      (target.isAbsolute = true → ¬ GoesUp target) := by
  refine ⟨fun files schema loaded => leadsTo_of_mem_load hname, ⟨fun h hup => ?_, ?_⟩,
    not_goesUp_of_absolute⟩
  · obtain ⟨loaded, hloaded, hnot⟩ := exists_not_leadsTo hname hup .lineEndings
    exact hnot (h _ _ loaded hloaded)
  · intro hup files schema loaded hloaded
    obtain ⟨up, directory, names, hne, hnames, hpath, hnormal, hread⟩ := leadsTo_of_mem_load hname hloaded
    -- With a name at the end there is no step up before it.
    cases up with
    | zero => exact ⟨directory, names, hne, hnames, hpath, hnormal, hread⟩
    | succ up =>
      obtain ⟨s, rest, rfl⟩ := List.exists_cons_of_ne_nil hne
      exact absurd ⟨by rw [hnormal]; simp [Path.upAndDown], s, by rw [hnormal]; simp [Path.upAndDown]⟩ hup

theorem load_below_after_up_and_down :
    Path.IsName Property.fileName ∧ ∀ files schema,
      ∀ loaded ∈ load ⟨files, schema, Property.fileName⟩ ⟨"x/../b/c"⟩,
        LeadsTo ⟨files, schema, Property.fileName⟩ ⟨"x/../b/c"⟩ 0 loaded := by
  have hname : Path.IsName Property.fileName := by decide
  have hdown : ¬ GoesUp ⟨"x/../b/c"⟩ := fun h => absurd h.1 (by decide +kernel)
  exact ⟨hname, (load_below_iff hname ⟨"x/../b/c"⟩).2.1.2 hdown⟩

/-- A properties file in the directory that relative paths start from. -/
def atStart : Files :=
  .ofList [(⟨".editorconfig"⟩, some "[a]\nend_of_line = crlf")]

/-- That file speaks about what stands beside the directory, in the one above. -/
theorem load_beside :
    (resolve ⟨atStart, .lineEndings, Property.fileName⟩ ⟨"../a"⟩).value? endOfLine = some "crlf" ∧
      ∃ loaded ∈ load ⟨atStart, .lineEndings, Property.fileName⟩ ⟨"../a"⟩,
        ¬ LeadsTo ⟨atStart, .lineEndings, Property.fileName⟩ ⟨"../a"⟩ 0 loaded := by
  have hpaths : (load ⟨atStart, .lineEndings, Property.fileName⟩ ⟨"../a"⟩).map (·.path) =
      [⟨".editorconfig"⟩] := by decide +kernel
  have hmem : Path.mk ".editorconfig" ∈
      (load ⟨atStart, .lineEndings, Property.fileName⟩ ⟨"../a"⟩).map (·.path) := by
    rw [hpaths]
    exact List.mem_singleton_self _
  obtain ⟨loaded, hloaded, hpath⟩ := List.mem_map.1 hmem
  refine ⟨by decide +kernel, loaded, hloaded, not_leadsTo_of_path_eq (by decide) ?_ (by decide +kernel)⟩
  rw [hpath]
  decide +kernel

end Resolver

end Property

end LineEndings

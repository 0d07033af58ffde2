/-
What settings files say together.

A setting with one value is decided by the first file that sets it (`Decides`), whatever that value is, and by the
default if none does. The overrides and the patterns to ignore come file by file, so an override that matches
stands in the nearest file that has one (`firstMatch_merge_iff`), and a path is ignored when some file says so
(`matches_ignore_merge_iff`).

* `merge_append` — hence files may be merged in two parts, wherever they are cut.
-/
import LineEndings.Settings.Overrides
import LineEndings.Proofs.Glob.Matching
import LineEndings.Proofs.Text.Trimming

namespace LineEndings

/-! ### Overrides -/

/-- Whether an override matches a label and none before it does. -/
def FirstMatch (entries : List CompiledOverride) (label : String) (entry : CompiledOverride) : Prop :=
  ∃ front back, entries = front ++ entry :: back ∧ entry.pattern.matches label = true ∧
    ∀ other ∈ front, other.pattern.matches label = false

/-- The overrides of a settings file, compiled, in order. -/
def compiledOverrides (loaded : LoadedSettings) : List CompiledOverride :=
  loaded.file.overrides.map fun override => .ofOverride ⟨override, loaded.path⟩

/-- Whether an override is the first one of its settings file that matches a label, and no nearer file has one
that does. -/
def NearestMatch (loaded : List LoadedSettings) (label : String) (entry : CompiledOverride) : Prop :=
  ∃ near file far, loaded = near ++ file :: far ∧
    (∀ other ∈ near, ∀ override ∈ compiledOverrides other, override.pattern.matches label = false) ∧
    FirstMatch (compiledOverrides file) label entry

variable {entries more : List CompiledOverride} {label : String} {entry : CompiledOverride}
  {loaded : List LoadedSettings}

theorem find?_eq_some_iff : CompiledOverride.find? entries label = some entry ↔ FirstMatch entries label entry := by
  simp only [CompiledOverride.find?, List.find?_eq_some_iff_append, FirstMatch, Bool.not_eq_true']
  constructor
  · rintro ⟨hmatch, front, back, hentries, hfront⟩
    exact ⟨front, back, hentries, hmatch, hfront⟩
  · rintro ⟨front, back, hentries, hmatch, hfront⟩
    exact ⟨hmatch, front, back, hentries, hfront⟩

theorem find?_eq_none_iff :
    CompiledOverride.find? entries label = none ↔ ∀ entry ∈ entries, entry.pattern.matches label = false := by
  simp only [CompiledOverride.find?, List.find?_eq_none, Bool.not_eq_true]

theorem firstMatch_append_iff :
    FirstMatch (entries ++ more) label entry ↔ FirstMatch entries label entry ∨
      (∀ other ∈ entries, other.pattern.matches label = false) ∧ FirstMatch more label entry := by
  rw [← find?_eq_some_iff, ← find?_eq_some_iff, ← find?_eq_some_iff, ← find?_eq_none_iff]
  simp only [CompiledOverride.find?, List.find?_append, Option.or_eq_some_iff]

theorem not_nearestMatch_nil : ¬ NearestMatch [] label entry := by
  rintro ⟨near, file, far, hloaded, -⟩
  simp at hloaded

/-- The nearest file has the override, or none that matches. -/
theorem nearestMatch_cons_iff {file : LoadedSettings} :
    NearestMatch (file :: loaded) label entry ↔
      FirstMatch (compiledOverrides file) label entry ∨
        (∀ other ∈ compiledOverrides file, other.pattern.matches label = false) ∧
          NearestMatch loaded label entry := by
  constructor
  · rintro ⟨near, found, far, hloaded, hnear, hmatch⟩
    cases near with
    | nil =>
      obtain ⟨rfl, rfl⟩ := List.cons.inj hloaded
      exact Or.inl hmatch
    | cons first near =>
      obtain ⟨rfl, rfl⟩ := List.cons.inj hloaded
      obtain ⟨hfirst, hnear⟩ := List.forall_mem_cons.1 hnear
      exact Or.inr ⟨hfirst, near, found, far, rfl, hnear, hmatch⟩
  · rintro (hmatch | ⟨hfirst, near, found, far, rfl, hnear, hmatch⟩)
    · exact ⟨[], file, loaded, rfl, by simp, hmatch⟩
    · exact ⟨file :: near, found, far, rfl, List.forall_mem_cons.2 ⟨hfirst, hnear⟩, hmatch⟩

/-- The overrides of merged settings come file by file. -/
theorem compileOverrides_merge (loaded : List LoadedSettings) :
    (Settings.merge loaded).compileOverrides = loaded.flatMap compiledOverrides := by
  show (loaded.flatMap _).map CompiledOverride.ofOverride = _
  rw [List.map_flatMap]
  simp only [List.map_map]
  rfl

/-- Of merged settings, the nearest file that has an override that matches has the first one. -/
theorem firstMatch_merge_iff :
    FirstMatch (Settings.merge loaded).compileOverrides label entry ↔ NearestMatch loaded label entry := by
  rw [compileOverrides_merge]
  induction loaded with
  | nil =>
    refine iff_of_false ?_ not_nearestMatch_nil
    rintro ⟨front, back, hnil, -⟩
    simp at hnil
  | cons file loaded ih => rw [List.flatMap_cons, firstMatch_append_iff, nearestMatch_cons_iff, ih]

namespace Settings

/-! ### Single values -/

/-- Whether a value is that of the first file that makes a setting, or the default if no file makes it. -/
def Decides {α : Type} (loaded : List LoadedSettings) (setting? : SettingsFile → Option α) (default value : α) :
    Prop :=
  (∃ near entry far, loaded = near ++ entry :: far ∧ (∀ other ∈ near, setting? other.file = none) ∧
      setting? entry.file = some value) ∨
    (∀ entry ∈ loaded, setting? entry.file = none) ∧ value = default

theorem findSome?_getD_eq_iff {α : Type} {setting? : SettingsFile → Option α} {default value : α} :
    (loaded.findSome? (setting? ·.file)).getD default = value ↔ Decides loaded setting? default value := by
  cases hfind : loaded.findSome? (setting? ·.file) with
  | none =>
    have hnone := List.findSome?_eq_none_iff.1 hfind
    constructor
    · intro h
      exact Or.inr ⟨hnone, h.symm⟩
    · rintro (⟨near, entry, far, rfl, -, hentry⟩ | ⟨-, h⟩)
      · rw [hnone entry (by simp)] at hentry
        cases hentry
      · exact h.symm
  | some first =>
    obtain ⟨near, entry, far, hloaded, hentry, hnear⟩ := List.findSome?_eq_some_iff.1 hfind
    constructor
    · rintro rfl
      exact Or.inl ⟨near, entry, far, hloaded, hnear, hentry⟩
    · rintro (⟨near', entry', far', hloaded', hnear', hentry'⟩ | ⟨hnone, -⟩)
      · have hfind' := List.findSome?_eq_some_iff.2 ⟨near', entry', far', hloaded', hentry', hnear'⟩
        exact Option.some.inj (hfind.symm.trans hfind')
      · rw [hnone entry (by simp [hloaded])] at hentry
        cases hentry

/-! ### Overrides -/

theorem find?_compileOverrides_append (near far : List LoadedSettings) (path : String) :
    CompiledOverride.find? (merge (near ++ far)).compileOverrides path =
      (CompiledOverride.find? (merge near).compileOverrides path).or
        (CompiledOverride.find? (merge far).compileOverrides path) := by
  rw [compileOverrides_merge, compileOverrides_merge, compileOverrides_merge, List.flatMap_append,
    CompiledOverride.find?, List.find?_append]
  rfl

/-- An override of merged settings comes from one of the files, and names it. -/
theorem exists_of_find?_compileOverrides {path : String}
    (h : CompiledOverride.find? (merge loaded).compileOverrides path = some entry) :
    ∃ source ∈ loaded, entry.source = source.path ∧
      ∃ override ∈ source.file.overrides, entry = .ofOverride ⟨override, source.path⟩ := by
  have hmem : entry ∈ (merge loaded).compileOverrides := List.mem_of_find?_eq_some h
  rw [compileOverrides_merge, List.mem_flatMap] at hmem
  obtain ⟨source, hsource, hmem⟩ := hmem
  obtain ⟨override, hoverride, rfl⟩ := List.mem_map.1 hmem
  exact ⟨source, hsource, rfl, override, hoverride, rfl⟩

/-! ### Patterns to ignore -/

/-- A settings file without the patterns to ignore that are blank. -/
def withoutBlanks (loaded : LoadedSettings) : LoadedSettings :=
  { loaded with
    file := { loaded.file with ignore := loaded.file.ignore.filter (!Text.isAllBlank ·) } }

theorem isEmpty_trimmed (raw : String) : (Text.trimmed raw).isEmpty = Text.isAllBlank raw := by
  rw [Bool.eq_iff_iff, String.isEmpty_iff, ← String.toList_eq_nil_iff, Text.trimmed, String.toList_ofList,
    Text.trim_eq_nil_iff]
  rfl

/-- A pattern may be trimmed before it is compiled. -/
theorem matches_compile_trimmed (raw path : String) :
    (Glob.Pattern.compile (Text.trimmed raw)).matches path = true ↔
      (Glob.Pattern.compile raw).matches path = true := by
  rw [Glob.matches_iff_selects, Glob.matches_iff_selects, Glob.Selects, Glob.Selects, Glob.tokensOf, Glob.tokensOf,
    Text.trimmed, String.toList_ofList, Text.trim_trim]

theorem mem_ignore_merge_iff {pattern : String} :
    pattern ∈ (merge loaded).ignore ↔
      ∃ entry ∈ loaded, ∃ raw ∈ entry.file.ignore, Text.isAllBlank raw = false ∧ Text.trimmed raw = pattern := by
  show pattern ∈ List.filter _ (loaded.flatMap _) ↔ _
  rw [List.mem_filter, List.mem_flatMap]
  constructor
  · rintro ⟨⟨entry, hentry, hmem⟩, hkept⟩
    obtain ⟨raw, hraw, rfl⟩ := List.mem_map.1 hmem
    rw [isEmpty_trimmed, Bool.not_eq_true'] at hkept
    exact ⟨entry, hentry, raw, hraw, hkept, rfl⟩
  · rintro ⟨entry, hentry, raw, hraw, hkept, rfl⟩
    rw [isEmpty_trimmed, hkept]
    exact ⟨⟨entry, hentry, List.mem_map_of_mem hraw⟩, rfl⟩

/-- A path is ignored when a pattern of some file matches it. -/
theorem matches_ignore_merge_iff {path : String} :
    (Glob.PatternSet.ofList (merge loaded).ignore).matches path = true ↔
      ∃ entry ∈ loaded, ∃ raw ∈ entry.file.ignore, Text.isAllBlank raw = false ∧
        (Glob.Pattern.compile raw).matches path = true := by
  rw [Glob.PatternSet.matches_ofList]
  constructor
  · rintro ⟨pattern, hmem, hmatch⟩
    obtain ⟨entry, hentry, raw, hraw, hkept, rfl⟩ := mem_ignore_merge_iff.1 hmem
    exact ⟨entry, hentry, raw, hraw, hkept, (matches_compile_trimmed raw path).1 hmatch⟩
  · rintro ⟨entry, hentry, raw, hraw, hkept, hmatch⟩
    exact ⟨Text.trimmed raw, mem_ignore_merge_iff.2 ⟨entry, hentry, raw, hraw, hkept, rfl⟩,
      (matches_compile_trimmed raw path).2 hmatch⟩

theorem matches_ignore_append_iff {near far : List LoadedSettings} {path : String} :
    (Glob.PatternSet.ofList (merge (near ++ far)).ignore).matches path = true ↔
      (Glob.PatternSet.ofList (merge near).ignore).matches path = true ∨
        (Glob.PatternSet.ofList (merge far).ignore).matches path = true := by
  simp only [matches_ignore_merge_iff, List.mem_append, or_and_right, exists_or]

/-- Blank patterns make no difference to merged settings. -/
theorem merge_map_withoutBlanks (loaded : List LoadedSettings) :
    merge (loaded.map withoutBlanks) = merge loaded := by
  have hignore : (merge (loaded.map withoutBlanks)).ignore = (merge loaded).ignore := by
    show List.filter _ ((loaded.map withoutBlanks).flatMap _) = List.filter _ (loaded.flatMap _)
    rw [List.flatMap_map, List.filter_flatMap, List.filter_flatMap]
    refine List.flatMap_congr fun entry _ => ?_
    rw [withoutBlanks, List.filter_map, List.filter_map, List.filter_filter]
    refine congrArg _ (List.filter_congr fun raw _ => ?_)
    rw [Function.comp_apply, isEmpty_trimmed, Bool.and_self]
  have hrest : { merge (loaded.map withoutBlanks) with ignore := [] } = { merge loaded with ignore := [] } := by
    simp only [merge, List.findSome?_map, List.flatMap_map]
    rfl
  rw [Settings.mk.injEq] at hrest
  obtain ⟨hexpected, hrespect, honly, -, hoverrides⟩ := hrest
  rw [Settings.mk.injEq]
  exact ⟨hexpected, hrespect, honly, hignore, hoverrides⟩

/-! ### Both parts together -/

/-- What files say together, cut in two parts. Every single value is that of the first file that sets it, or the
default if none does; for a path, the override of the near part is found if it has one that matches, and otherwise
that of the far part, in either case with the file that it stands in; and a path is ignored when one of the parts
ignores it, in which blank patterns have no part. -/
theorem merge_append (near far : List LoadedSettings) (path : String) :
    let settings := merge (near ++ far)
    let found? := CompiledOverride.find? settings.compileOverrides path
    (∀ value, settings.expected = value ↔ Decides (near ++ far) (·.expected?) .auto value) ∧
      (∀ value, settings.respectProperties = value ↔ Decides (near ++ far) (·.respectProperties?) true value) ∧
      (∀ value, settings.finalNewlineOnly = value ↔ Decides (near ++ far) (·.finalNewlineOnly?) false value) ∧
      found? = (CompiledOverride.find? (merge near).compileOverrides path).or
        (CompiledOverride.find? (merge far).compileOverrides path) ∧
      (∀ entry, found? = some entry ↔ NearestMatch (near ++ far) path entry) ∧
      (∀ entry, found? = some entry → ∃ source ∈ near ++ far, entry.source = source.path ∧
        ∃ override ∈ source.file.overrides, entry = .ofOverride ⟨override, source.path⟩) ∧
      ((Glob.PatternSet.ofList settings.ignore).matches path = true ↔
        (Glob.PatternSet.ofList (merge near).ignore).matches path = true ∨
          (Glob.PatternSet.ofList (merge far).ignore).matches path = true) ∧
      ((Glob.PatternSet.ofList settings.ignore).matches path = true ↔
        ∃ entry ∈ near ++ far, ∃ raw ∈ entry.file.ignore, Text.isAllBlank raw = false ∧
          (Glob.Pattern.compile raw).matches path = true) ∧
      merge ((near ++ far).map withoutBlanks) = settings := by
  intro settings found?
  refine ⟨fun _ => findSome?_getD_eq_iff, fun _ => findSome?_getD_eq_iff, fun _ => findSome?_getD_eq_iff,
    find?_compileOverrides_append near far path, fun entry => ?_, fun _ => exists_of_find?_compileOverrides,
    matches_ignore_append_iff, matches_ignore_merge_iff, merge_map_withoutBlanks _⟩
  rw [find?_eq_some_iff, firstMatch_merge_iff]

end Settings

end LineEndings

/-
Who decides which line ending is expected.

A value that a resolution has is one that its schema understands (`Property.Resolver.recognizes_of_resolve`),
and the values that are understood for a line ending are the names of the two kinds
(`exists_ending_of_recognizes`). So where a properties file sets a line ending, it decides, and a file that does
not decide is not named (`expectation_names_authority`).
-/
import LineEndings.Workspace.Check
import LineEndings.Proofs.Property.Containing
import LineEndings.Proofs.Property.Reading
import LineEndings.Proofs.Settings.Merging

namespace LineEndings

/-! ### Values of properties -/

namespace Property.Resolver

variable {resolver : Resolver} {target : Path} {key : String} {property : Resolved}

/-- What a resolution says of a property, the file that it names says. -/
theorem exists_loaded_of_resolve (h : (resolver.resolve target).properties[key]? = some property) :
    ∃ loaded ∈ resolver.load target, loaded.path = property.source ∧
      ∃ assignment, loaded.source.assignments[key]? = some assignment ∧ assignment.value = property.value := by
  rw [resolve, getElem?_properties_ofSources] at h
  obtain ⟨loaded, hloaded, hproperty⟩ := List.exists_of_findSome?_eq_some h
  rw [LoadedSource.properties, Std.TreeMap.getElem?_map, Option.map_eq_some_iff] at hproperty
  obtain ⟨assignment, hassignment, rfl⟩ := hproperty
  exact ⟨loaded, hloaded, rfl, assignment, hassignment, rfl⟩

/-- What a resolution says of a property is understood by the schema. -/
theorem recognizes_of_resolve (h : (resolver.resolve target).properties[key]? = some property) :
    resolver.schema.recognizes key property.value = true := by
  obtain ⟨loaded, hloaded, -, assignment, hassignment, hvalue⟩ := exists_loaded_of_resolve h
  obtain ⟨-, contents, label, -, -, hsource⟩ := of_mem_loadAll hloaded
  rw [hsource, (follows_read _ label contents).1] at hassignment
  obtain ⟨⟨_, _, _, _, _, hknown, _⟩, -⟩ := hassignment
  rwa [hvalue] at hknown

end Property.Resolver

theorem Ending.ofName?_name (ending : Ending) : Ending.ofName? ending.name = some ending := by
  cases ending <;> decide +kernel

/-- The values that are understood for a line ending are the names of its kinds. -/
theorem exists_ending_of_recognizes {value : String}
    (h : Property.Schema.lineEndings.recognizes Property.endOfLine value = true) :
    ∃ ending : Ending, value = ending.name := by
  have hkey : Property.Schema.lineEndings.get? Property.endOfLine =
      some ⟨"end_of_line", some ["lf", "crlf"]⟩ := by decide +kernel
  rw [Property.Schema.recognizes, hkey, Option.any_some, Property.Key.accepts, List.contains_iff_mem] at h
  rcases List.mem_cons.1 h with h | h
  · exact ⟨.lf, h⟩
  · exact ⟨.crlf, List.mem_singleton.1 h⟩

/-! ### What is expected -/

/-- Properties that set no line ending have no part in the decision. -/
theorem decideEnding_none (settings : Expected) (respected : Bool) (override? : Option Ending) :
    decideEnding settings none respected override? =
      match override?, settings with
      | some ending, _ => ⟨.fixed ending, .override⟩
      | none, .fixed ending => ⟨.fixed ending, .settings⟩
      | none, .auto => ⟨.auto, .auto⟩ := by
  cases respected <;> cases override? <;> cases settings <;> rfl

theorem authority_decideEnding_none (settings : Expected) (respected : Bool) (override? : Option Ending) :
    (decideEnding settings none respected override?).authority ≠ .properties := by
  rw [decideEnding_none]
  cases override? <;> cases settings <;> simp

theorem exists_of_authority_eq_override {settings : Expected} {respected : Bool} {override? : Option Ending}
    (h : (decideEnding settings none respected override?).authority = .override) :
    ∃ ending, override? = some ending ∧
      (decideEnding settings none respected override?).expected = .fixed ending := by
  rw [decideEnding_none] at h ⊢
  cases override? with
  | some ending => exact ⟨ending, rfl, rfl⟩
  | none => cases settings <;> cases h

namespace Workspace

variable {workspace : Workspace} {tree : Tree} {path : Path}

/-- What the properties of a file say of its line ending, respected or not. -/
def endOfLine? (workspace : Workspace) (tree : Tree) (path : Path) : Option Property.Resolved :=
  ((resolver tree).resolve (workspace.absolute path)).properties[Property.endOfLine]?

/-- A line ending that properties set decides, and its file is named. -/
theorem expectation_of_property {property : Property.Resolved}
    (hrespect : workspace.settings.respectProperties = true)
    (h : workspace.endOfLine? tree path = some property) :
    ∃ ending : Ending, property.value = ending.name ∧
      (workspace.expectation tree path).decision = ⟨.fixed ending, .properties⟩ ∧
      (workspace.expectation tree path).propertiesFile? = some property.source := by
  obtain ⟨ending, hvalue⟩ := exists_ending_of_recognizes (Property.Resolver.recognizes_of_resolve h)
  have hproperties : (workspace.properties tree path).properties[Property.endOfLine]? = some property := by
    rw [properties, hrespect, if_pos rfl]
    exact h
  refine ⟨ending, hvalue, ?_, ?_⟩
  · simp only [expectation, hproperties, Option.bind_some, hvalue, Ending.ofName?_name, hrespect]
    rfl
  · simp only [expectation, hproperties, Option.map_some]

/-- Where properties set none, or are not respected, they are not asked. -/
theorem expectation_of_no_property
    (h : workspace.settings.respectProperties = false ∨ workspace.endOfLine? tree path = none) :
    (workspace.expectation tree path).propertiesFile? = none ∧
      (workspace.expectation tree path).decision =
        decideEnding workspace.settings.expected none workspace.settings.respectProperties
          ((CompiledOverride.find? workspace.overrides (workspace.label path)).map (·.ending)) := by
  have hproperties : (workspace.properties tree path).properties[Property.endOfLine]? = none := by
    rw [properties]
    split
    · rename_i hrespect
      exact h.resolve_left (by rw [hrespect]; exact Bool.noConfusion)
    · exact Std.TreeMap.getElem?_emptyc
  constructor
  · simp only [expectation, hproperties, Option.map_none]
  · simp only [expectation, hproperties, Option.bind_none]

/-- The first override that matches decides where no properties do. -/
theorem decision_of_firstMatch
    (h : workspace.settings.respectProperties = false ∨ workspace.endOfLine? tree path = none)
    {entry : CompiledOverride} (hentry : FirstMatch workspace.overrides (workspace.label path) entry) :
    (workspace.expectation tree path).decision = ⟨.fixed entry.ending, .override⟩ := by
  rw [(expectation_of_no_property h).2, decideEnding_none, find?_eq_some_iff.2 hentry]
  rfl

/-- Where no override matches either, the settings decide. -/
theorem decision_of_unmatched
    (h : workspace.settings.respectProperties = false ∨ workspace.endOfLine? tree path = none)
    (hunmatched : ∀ entry ∈ workspace.overrides, entry.pattern.matches (workspace.label path) = false) :
    (∀ ending, workspace.settings.expected = .fixed ending →
      (workspace.expectation tree path).decision = ⟨.fixed ending, .settings⟩) ∧
    (workspace.settings.expected = .auto → (workspace.expectation tree path).decision = ⟨.auto, .auto⟩) := by
  rw [(expectation_of_no_property h).2, decideEnding_none, find?_eq_none_iff.2 hunmatched]
  constructor
  · intro ending hexpected
    rw [hexpected]
    rfl
  · intro hexpected
    rw [hexpected]
    rfl

/-- Properties are not asked, or they set a line ending. -/
theorem not_asked_or_property (workspace : Workspace) (tree : Tree) (path : Path) :
    (workspace.settings.respectProperties = false ∨ workspace.endOfLine? tree path = none) ∨
      ∃ property, workspace.settings.respectProperties = true ∧ workspace.endOfLine? tree path = some property := by
  cases hrespect : workspace.settings.respectProperties with
  | false => exact Or.inl (Or.inl rfl)
  | true =>
    cases hproperty : workspace.endOfLine? tree path with
    | none => exact Or.inl (Or.inr rfl)
    | some property => exact Or.inr ⟨property, rfl, rfl⟩

/-- A properties file is named when it decides. -/
theorem propertiesFile?_isSome_iff : (workspace.expectation tree path).propertiesFile?.isSome = true ↔
    (workspace.expectation tree path).decision.authority = .properties := by
  rcases not_asked_or_property workspace tree path with h | ⟨property, hrespect, hproperty⟩
  · obtain ⟨hfile, hdecision⟩ := expectation_of_no_property h
    rw [hfile, hdecision]
    exact iff_of_false Bool.false_ne_true (authority_decideEnding_none _ _ _)
  · obtain ⟨ending, -, hdecision, hfile⟩ := expectation_of_property hrespect hproperty
    rw [hfile, hdecision]
    exact iff_of_true rfl rfl

/-- An override that decides is the first one that matches, and is the one that is named. -/
theorem exists_firstMatch_of_authority (h : (workspace.expectation tree path).decision.authority = .override) :
    ∃ entry, FirstMatch workspace.overrides (workspace.label path) entry ∧
      (workspace.expectation tree path).decision.expected = .fixed entry.ending ∧
      (workspace.expectation tree path).overrideDetail? = some entry.detail := by
  rcases not_asked_or_property workspace tree path with hnone | ⟨property, hrespect, hproperty⟩
  · obtain ⟨-, hdecision⟩ := expectation_of_no_property hnone
    rw [hdecision] at h ⊢
    obtain ⟨ending, hoverride, hexpected⟩ := exists_of_authority_eq_override h
    obtain ⟨entry, hentry, rfl⟩ := Option.map_eq_some_iff.1 hoverride
    exact ⟨entry, find?_eq_some_iff.1 hentry, hexpected, Option.map_eq_some_iff.2 ⟨entry, hentry, rfl⟩⟩
  · obtain ⟨ending, -, hdecision, -⟩ := expectation_of_property hrespect hproperty
    rw [hdecision] at h
    cases h

/-- The tree is only asked for properties. -/
theorem expectation_of_not_respected (h : workspace.settings.respectProperties = false) :
    (workspace.expectation tree path).insertFinalNewline? = none ∧
      ∀ other, workspace.expectation other path = workspace.expectation tree path := by
  have hproperties (other : Tree) : workspace.properties other path = ⟨∅, []⟩ := by
    rw [properties]
    exact if_neg (by rw [h]; exact Bool.false_ne_true)
  constructor
  · simp only [expectation, hproperties, Property.Resolution.value?]
    rfl
  · intro other
    simp only [expectation, hproperties]

/-- What is expected of a file, who says so, and what is named for it. Where properties are respected and set a
line ending, that is expected, and the properties file that sets it is named. Otherwise no properties file is
named, and the first override that matches the label of the file decides, the nearest settings file going first;
if none matches, the settings decide, or leave it open. So a properties file is named exactly when it decides,
and an override that decides is the one that is named; and where properties are not respected, nothing depends on
any file of the tree. -/
theorem expectation_names_authority (workspace : Workspace) (tree : Tree) (path : Path) :
    let label := workspace.label path
    let expectation := workspace.expectation tree path
    (∀ property, workspace.settings.respectProperties = true → workspace.endOfLine? tree path = some property →
      ∃ ending : Ending, property.value = ending.name ∧
        expectation.decision = ⟨.fixed ending, .properties⟩ ∧
        expectation.propertiesFile? = some property.source ∧
        ∃ loaded ∈ (resolver tree).load (workspace.absolute path), loaded.path = property.source ∧
          (loaded.source.assignments[Property.endOfLine]?).map (·.value) = some property.value) ∧
    (workspace.settings.respectProperties = false ∨ workspace.endOfLine? tree path = none →
      expectation.propertiesFile? = none ∧
      (∀ entry, FirstMatch workspace.overrides label entry →
        expectation.decision = ⟨.fixed entry.ending, .override⟩) ∧
      ((∀ entry ∈ workspace.overrides, entry.pattern.matches label = false) →
        (∀ ending, workspace.settings.expected = .fixed ending →
          expectation.decision = ⟨.fixed ending, .settings⟩) ∧
        (workspace.settings.expected = .auto → expectation.decision = ⟨.auto, .auto⟩))) ∧
    (∀ root loaded, workspace = ofSettings root (Settings.merge loaded) → ∀ entry,
      FirstMatch workspace.overrides label entry ↔ NearestMatch loaded label entry) ∧
    (expectation.propertiesFile?.isSome = true ↔ expectation.decision.authority = .properties) ∧
    (expectation.decision.authority = .override →
      ∃ entry, FirstMatch workspace.overrides label entry ∧
        expectation.decision.expected = .fixed entry.ending ∧
        expectation.overrideDetail? = some entry.detail) ∧
    (workspace.settings.respectProperties = false →
      expectation.insertFinalNewline? = none ∧ ∀ other, workspace.expectation other path = expectation) := by
  intro label expectation
  refine ⟨fun property hrespect hproperty => ?_, fun h => ?_, ?_, propertiesFile?_isSome_iff,
    exists_firstMatch_of_authority, expectation_of_not_respected⟩
  · obtain ⟨ending, hvalue, hdecision, hfile⟩ := expectation_of_property hrespect hproperty
    obtain ⟨loaded, hloaded, hpath, assignment, hassignment, hsame⟩ :=
      Property.Resolver.exists_loaded_of_resolve hproperty
    exact ⟨ending, hvalue, hdecision, hfile, loaded, hloaded, hpath, by rw [hassignment, Option.map_some, hsame]⟩
  · exact ⟨(expectation_of_no_property h).1, fun entry => decision_of_firstMatch h, decision_of_unmatched h⟩
  · rintro root loaded rfl entry
    exact firstMatch_merge_iff

end Workspace

end LineEndings

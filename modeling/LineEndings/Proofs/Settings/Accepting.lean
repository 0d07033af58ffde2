/-
Which overrides of a settings file can fire.

A settings file is rejected because of its first override with a blank pattern (`read_eq_invalidOverride_iff`), and
that one matches nothing. It is accepted when no pattern is blank (`read_eq_ok_iff`), but that does not mean that
each of them matches something: a bracket expression that lists nothing is not blank.

* `read_rejects_dead_only` — what is rejected could never fire, and of what is accepted those overrides can fire
  that have a satisfiable pattern, among them all without brackets and backslashes.
-/
import LineEndings.Proofs.Glob.Satisfying
import LineEndings.Proofs.Text.Trimming
import LineEndings.Settings.File

namespace LineEndings

/-! ### Overrides -/

namespace Override

variable {override : Override}

/-- Whether an override matches some label. -/
def CanFire (override : Override) : Prop :=
  ∃ label, (Glob.Pattern.compile override.pattern).matches label = true

theorem canFire_iff :
    override.CanFire ↔
      Text.isAllBlank override.pattern = false ∧ Glob.Satisfiable (Glob.tokensOf override.pattern) := by
  rw [CanFire, Glob.exists_matches_iff_satisfiable, ne_eq, Text.trim_eq_nil_iff, Bool.not_eq_true]
  rfl

theorem canFire_of_plain (hblank : Text.isAllBlank override.pattern = false)
    (hbracket : '[' ∉ override.pattern.toList) (hescape : '\\' ∉ override.pattern.toList) : override.CanFire := by
  have hsub : Glob.patternBody (Text.trim override.pattern.toList) ⊆ override.pattern.toList :=
    List.Subset.trans (Glob.patternBody_suffix _).subset (Text.trim_subset _)
  exact canFire_iff.2 ⟨hblank, Glob.satisfiable_of_plain (fun h => hbracket (hsub h)) fun h => hescape (hsub h)⟩

end Override

namespace SettingsFile

variable {path : Path} {contents : String} {file : SettingsFile} {index : Nat}

/-! ### Blank patterns -/

theorem invalidOverride?_eq_none_iff :
    file.invalidOverride? = none ↔ ∀ override ∈ file.overrides, Text.isAllBlank override.pattern = false := by
  rw [invalidOverride?, Option.map_eq_none_iff, List.findIdx?_eq_none_iff]

theorem invalidOverride?_eq_some_iff :
    file.invalidOverride? = some index ↔
      ∃ front override back, file.overrides = front ++ override :: back ∧ index = front.length + 1 ∧
        Text.isAllBlank override.pattern = true ∧ ∀ other ∈ front, Text.isAllBlank other.pattern = false := by
  rw [invalidOverride?, Option.map_eq_some_iff]
  constructor
  · rintro ⟨place, hfind, rfl⟩
    obtain ⟨hplace, hblank, hfront⟩ := List.findIdx?_eq_some_iff_getElem.1 hfind
    refine ⟨file.overrides.take place, file.overrides[place], file.overrides.drop (place + 1), ?_, ?_, hblank, ?_⟩
    · rw [← List.drop_eq_getElem_cons hplace, List.take_append_drop]
    · rw [List.length_take_of_le hplace.le]
    · intro other hother
      obtain ⟨earlier, hearlier, rfl⟩ := List.mem_take_iff_getElem.1 hother
      exact Bool.eq_false_iff.2 (hfront earlier (lt_of_lt_of_le hearlier (min_le_left _ _)))
  · rintro ⟨front, override, back, hoverrides, rfl, hblank, hfront⟩
    refine ⟨front.length, ?_, rfl⟩
    rw [hoverrides, List.findIdx?_append, List.findIdx?_eq_none_iff.2 hfront, List.findIdx?_cons, hblank]
    simp

/-! ### Reading -/

/-- What a text says, its overrides not looked at. -/
def decode? (contents : String) : Decoded SettingsFile :=
  (Toml.document? contents).bind ofDocument?

theorem read_eq_ok_iff :
    read path contents = .ok file ↔
      decode? contents = some file ∧ ∀ override ∈ file.overrides, Text.isAllBlank override.pattern = false := by
  rw [← invalidOverride?_eq_none_iff, read, ← decode?]
  cases decode? contents with
  | none => simp
  | some decoded =>
    dsimp only
    cases hinvalid : decoded.invalidOverride? with
    | none =>
      constructor
      · intro h
        cases h
        exact ⟨rfl, hinvalid⟩
      · rintro ⟨h, -⟩
        rw [Option.some.inj h]
    | some index =>
      refine iff_of_false (by simp) ?_
      rintro ⟨h, hnone⟩
      rw [← Option.some.inj h, hinvalid] at hnone
      cases hnone

theorem read_eq_invalidOverride_iff :
    read path contents = .error (.invalidOverride index) ↔
      ∃ file, decode? contents = some file ∧ file.invalidOverride? = some index := by
  rw [read, ← decode?]
  cases decode? contents with
  | none => simp
  | some decoded =>
    dsimp only
    cases hinvalid : decoded.invalidOverride? with
    | none => simp [hinvalid]
    | some first => simp [hinvalid]

/-- What is rejected because of an override could never fire, and of what is accepted exactly the overrides with a
satisfiable pattern can. -/
theorem read_rejects_dead_only (path : Path) (contents : String) :
    (∀ index, read path contents = .error (.invalidOverride index) →
        ∃ file override, decode? contents = some file ∧ file.overrides[index - 1]? = some override ∧
          ¬ override.CanFire) ∧
      ∀ file, read path contents = .ok file → ∀ override ∈ file.overrides,
        (override.CanFire ↔ Glob.Satisfiable (Glob.tokensOf override.pattern)) ∧
          ('[' ∉ override.pattern.toList → '\\' ∉ override.pattern.toList → override.CanFire) := by
  constructor
  · intro index hread
    obtain ⟨file, hfile, hinvalid⟩ := read_eq_invalidOverride_iff.1 hread
    obtain ⟨front, override, back, hoverrides, rfl, hblank, -⟩ := invalidOverride?_eq_some_iff.1 hinvalid
    refine ⟨file, override, hfile, by simp [hoverrides], fun hfire => ?_⟩
    rw [(Override.canFire_iff.1 hfire).1] at hblank
    cases hblank
  · intro file hread override hmem
    have hblank := (read_eq_ok_iff.1 hread).2 override hmem
    refine ⟨?_, Override.canFire_of_plain hblank⟩
    rw [Override.canFire_iff]
    exact and_iff_right hblank

/-- Two overrides, the first with two branches that match nothing. -/
def groupText : String :=
  "[[overrides]]\npattern = \"\x7b[z-a],[/],x\x7d\"\neol = \"lf\"\n" ++
    "[[overrides]]\npattern = \"*.bat\"\neol = \"crlf\"\n"

/-- An override with a blank pattern. -/
def blankText : String :=
  "[[overrides]]\npattern = \"  \"\neol = \"lf\"\n"

/-- A group fires through the branch that can, and a blank pattern is rejected because it cannot. -/
theorem canFire_group_and_not_blank :
    (∃ file, read ⟨"a"⟩ groupText = .ok file ∧ ∀ override ∈ file.overrides, override.CanFire) ∧
      read ⟨"a"⟩ blankText = .error (.invalidOverride 1) ∧
        ∃ file override, decode? blankText = some file ∧ file.overrides[0]? = some override ∧
          ¬ override.CanFire := by
  have haccepted : read ⟨"a"⟩ groupText =
      .ok ⟨false, none, none, none, [], [⟨"\x7b[z-a],[/],x\x7d", .lf, none⟩, ⟨"*.bat", .crlf, none⟩]⟩ := by
    decide +kernel
  have hrejected : read ⟨"a"⟩ blankText = .error (.invalidOverride 1) := by
    decide +kernel
  refine ⟨⟨_, haccepted, fun override hmem => ?_⟩, hrejected, (read_rejects_dead_only ⟨"a"⟩ _).1 1 hrejected⟩
  have hfires := (read_rejects_dead_only ⟨"a"⟩ _).2 _ haccepted override hmem
  rcases List.mem_pair.1 hmem with rfl | rfl
  · have htokens : Glob.tokensOf "\x7b[z-a],[/],x\x7d" =
        [.group [[.charClass ⟨false, [.single '/']⟩], [.literal 'x']]] := by cbv
    refine hfires.1.2 ?_
    rw [htokens]
    exact ⟨Or.inr (Or.inl ⟨show 'x' ≠ '\\' by decide, trivial⟩), trivial⟩
  · exact hfires.2 (by decide) (by decide)

/-- A bracket expression that lists nothing is accepted. -/
theorem accepted_never_fires :
    read ⟨"test.toml"⟩ "[[overrides]]\npattern = \"[]\"\neol = \"lf\"\n" =
        .ok ⟨false, none, none, none, [], [⟨"[]", .lf, none⟩]⟩ ∧
      ¬ Override.CanFire ⟨"[]", .lf, none⟩ := by
  refine ⟨by decide +kernel, fun hfire => ?_⟩
  have htokens : Glob.tokensOf "[]" = [.never] := by cbv
  have hsatisfiable := (Override.canFire_iff.1 hfire).2
  rw [htokens] at hsatisfiable
  exact hsatisfiable.1

end SettingsFile

end LineEndings

/-
Properties do not bear on each other.

What a file says about a property depends on the schema through the key of that name alone
(`assignments_read_congr`), and the root mark does not depend on it at all (`root_read_congr`). So under
every schema the same files are loaded, up to the same root mark, and they say the same of a property that
has the same key (`loadAll_alike`).

* `resolve_key_alone` — what is resolved for a property is what is resolved under its key alone, and the
  sources are the same for all schemas.
-/
import LineEndings.Proofs.Property.Precedence
import LineEndings.Proofs.Property.Reading

namespace LineEndings.Property

variable {schema other : Schema} {key : String}

/-- The schema with nothing but the key of a name, if there is one. -/
def Schema.alone (schema : Schema) (name : String) : Schema :=
  ⟨(schema.get? name).toList⟩

theorem Schema.get?_alone (schema : Schema) (name : String) :
    (schema.alone name).get? name = schema.get? name := by
  cases hkey : schema.get? name with
  | none => rw [get?, alone, hkey]; rfl
  | some found =>
    rw [get?] at hkey
    have hname := List.find?_some hkey
    rw [get?, alone, get?, hkey]
    exact List.find?_cons_of_pos hname

/-! ### One file -/

theorem lastApplies_congr (h : other.get? key = schema.get? key) {path : String} {lines : List Line}
    {a : Assignment} :
    LastApplies other path lines key a ↔ LastApplies schema path lines key a := by
  have hknown : ∀ value, other.recognizes key value = schema.recognizes key value := by
    intro value
    rw [Schema.recognizes, Schema.recognizes, h]
  simp only [LastApplies, Applies, hknown]

theorem assignments_read_congr (h : other.get? key = schema.get? key) (path contents : String) :
    (Source.read other path contents).assignments[key]? =
      (Source.read schema path contents).assignments[key]? := by
  refine Option.ext fun a => ?_
  rw [(follows_read other path contents).1, (follows_read schema path contents).1]
  exact lastApplies_congr h

/-- The root mark is no property, whatever the schema says. -/
theorem root_read_congr (schema other : Schema) (path contents : String) :
    (Source.read other path contents).root = (Source.read schema path contents).root := by
  rw [Bool.eq_iff_iff, (follows_read other path contents).2, (follows_read schema path contents).2]

namespace Resolver

variable {files : Files} {name : String}

/-! ### Many files -/

/-- Whether two loaded files are the same, and say the same of the properties that have the same key in two
schemas. -/
def Alike (schema other : Schema) (loaded loaded' : LoadedSource) : Prop :=
  loaded.path = loaded'.path ∧ ∀ key, other.get? key = schema.get? key →
    loaded.source.assignments[key]? = loaded'.source.assignments[key]?

theorem loadAll_alike (schema other : Schema) (target : Path) (paths : List Path) :
    List.Forall₂ (Alike schema other) (loadAll ⟨files, other, name⟩ target paths)
      (loadAll ⟨files, schema, name⟩ target paths) := by
  induction paths with
  | nil => exact .nil
  | cons path paths ih =>
    cases hread : files.read path with
    | error fault => simpa only [loadAll, hread] using ih
    | ok contents =>
      cases hlabel : labelFrom? path target with
      | none => simpa only [loadAll, hread, hlabel] using ih
      | some label =>
        simp only [loadAll, hread, hlabel, root_read_congr schema other]
        refine .cons ⟨rfl, fun key h => assignments_read_congr h label contents⟩ ?_
        -- The mark that ends the search is the same for both.
        split
        · exact .nil
        · exact ih

theorem load_alike (schema other : Schema) (target : Path) :
    List.Forall₂ (Alike schema other) (load ⟨files, other, name⟩ target)
      (load ⟨files, schema, name⟩ target) := by
  have hdiscover : discover ⟨files, other, name⟩ target = discover ⟨files, schema, name⟩ target := by
    unfold discover
    generalize target.normalize.parent? = directory?
    cases directory? <;> rfl
  rw [load, load, hdiscover]
  exact loadAll_alike schema other target.normalize _

theorem sources_resolve_congr (schema other : Schema) (target : Path) :
    (resolve ⟨files, other, name⟩ target).sources = (resolve ⟨files, schema, name⟩ target).sources := by
  have hpaths : ((load ⟨files, other, name⟩ target).map (·.path)) =
      (load ⟨files, schema, name⟩ target).map (·.path) := by
    rw [← List.forall₂_eq_eq_eq, List.forall₂_map_left_iff, List.forall₂_map_right_iff]
    exact (load_alike schema other target).imp fun _ _ h => h.1
  rw [resolve, resolve, sources_ofSources, sources_ofSources, hpaths]

theorem getElem?_resolve_congr (h : other.get? key = schema.get? key) (target : Path) :
    (resolve ⟨files, other, name⟩ target).properties[key]? =
      (resolve ⟨files, schema, name⟩ target).properties[key]? := by
  have hproperties : (load ⟨files, other, name⟩ target).map (·.properties[key]?) =
      (load ⟨files, schema, name⟩ target).map (·.properties[key]?) := by
    rw [← List.forall₂_eq_eq_eq, List.forall₂_map_left_iff, List.forall₂_map_right_iff]
    refine (load_alike schema other target).imp fun loaded loaded' hsame => ?_
    rw [LoadedSource.properties, LoadedSource.properties, Std.TreeMap.getElem?_map,
      Std.TreeMap.getElem?_map, hsame.2 key h, hsame.1]
  have hfirst : ∀ near : List LoadedSource,
      near.findSome? (·.properties[key]?) = (near.map (·.properties[key]?)).findSome? id := by
    intro near
    rw [List.findSome?_map]
    rfl
  rw [resolve, resolve, getElem?_properties_ofSources, getElem?_properties_ofSources, hfirst, hfirst,
    hproperties]

/-- Properties do not bear on each other. For a property a target has the value, source, section and line that
it has when nothing else is in the schema, or nothing at all if the property is not; two schemas with the
same key for it give the same, whatever else they list and in whatever order; and the sources are the same
for all schemas. -/
theorem resolve_key_alone (files : Files) (name : String) (schema : Schema) (target : Path)
    (key : String) :
    (resolve ⟨files, schema, name⟩ target).properties[key]? =
        (resolve ⟨files, schema.alone key, name⟩ target).properties[key]? ∧
      (∀ other : Schema, other.get? key = schema.get? key →
        (resolve ⟨files, other, name⟩ target).properties[key]? =
          (resolve ⟨files, schema, name⟩ target).properties[key]?) ∧
      ∀ other : Schema, (resolve ⟨files, other, name⟩ target).sources =
        (resolve ⟨files, schema, name⟩ target).sources :=
  ⟨(getElem?_resolve_congr (schema.get?_alone key) target).symm,
    fun _ h => getElem?_resolve_congr h target, fun other => sources_resolve_congr schema other target⟩

/-- The line ending among other keys: the root mark, which is no property, before it, and after it another
key of its own name. -/
def crowded : Schema :=
  ⟨[.any "root", .any "charset", .oneOf endOfLine ["lf", "crlf"], .any endOfLine]⟩

/-- A properties file with the root mark below another one; its section sets neither the mark nor a legal
line ending. -/
def markedBelow : Files :=
  .ofList [(⟨"/.editorconfig"⟩, some "end_of_line = crlf"),
    (⟨"/w/.editorconfig"⟩, some "root = true\nend_of_line = lf\n[*]\nroot = x\nend_of_line = cr")]

theorem resolve_crowded :
    crowded.get? endOfLine = Schema.lineEndings.get? endOfLine ∧
      (resolve ⟨markedBelow, crowded, Property.fileName⟩ ⟨"/w/a"⟩).properties[endOfLine]? =
        some ⟨"lf", ⟨"/w/.editorconfig"⟩, none, 2⟩ := by
  have hkey : crowded.get? endOfLine = Schema.lineEndings.get? endOfLine := by decide +kernel
  refine ⟨hkey, ?_⟩
  rw [(resolve_key_alone markedBelow Property.fileName Schema.lineEndings ⟨"/w/a"⟩ endOfLine).2.1 crowded hkey]
  decide +kernel

end Resolver

end LineEndings.Property

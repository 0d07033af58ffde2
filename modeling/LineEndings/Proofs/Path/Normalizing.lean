/-
The normal form of a path is canonical.

Components go on a stack one after the other, and at every point the stack is in normal form
(`isNormal_pushNormal`). Components that are in normal form are stacked as they are
(`pushNormal_of_isNormal`), so a path can be replaced by its normal form at any point:

* `components_normalize` — what the normal form spells out are the components that are left on the stack;
* `normalComponents_of_isNormal` — which are those of the path if they are in normal form already;
* `normalize_join` — a path may be taken to its normal form before another is joined to it;
* `normalize_canonical` — the laws put together, and what follows for looking up properties: paths with the
  same normal form have the same properties files.
-/
import LineEndings.Proofs.Path.Above
import LineEndings.Property.Cascade

namespace LineEndings

namespace Path

variable {p q : Path} {front components : List Component} {component : Component}

/-- Whether components are in normal form: no `.` is among them, and nothing but `..` before a `..`. -/
def IsNormal (components : List Component) : Prop :=
  .current ∉ components ∧
    ∀ above below, components = above ++ .parent :: below → ∀ component ∈ above, component = .parent

theorem isNormal_nil : IsNormal [] := by
  refine ⟨List.not_mem_nil, fun above below h => ?_⟩
  simp at h

/-- Another component may follow unless it is a `.`, or a `..` that something else comes before. -/
theorem isNormal_snoc_iff :
    IsNormal (front ++ [component]) ↔
      IsNormal front ∧ component ≠ .current ∧ (component = .parent → ∀ other ∈ front, other = .parent) := by
  constructor
  · rintro ⟨hcurrent, hparent⟩
    rw [List.mem_append, List.mem_singleton, not_or] at hcurrent
    refine ⟨⟨hcurrent.1, fun above below h => ?_⟩, Ne.symm hcurrent.2, ?_⟩
    · exact hparent above (below ++ [component]) (by rw [h, List.append_assoc, List.cons_append])
    · rintro rfl
      exact hparent front [] rfl
  · rintro ⟨⟨hcurrent, hparent⟩, hne, hlast⟩
    refine ⟨by simp [hcurrent, Ne.symm hne], fun above below h => ?_⟩
    rcases List.eq_nil_or_concat below with rfl | ⟨below, last, rfl⟩
    · obtain ⟨rfl, hcomponent⟩ := List.append_inj' h rfl
      exact hlast (List.cons.inj hcomponent).1
    · rw [List.concat_eq_append, ← List.cons_append, ← List.append_assoc] at h
      exact hparent above below (List.append_inj' h rfl).1

theorem IsNormal.of_snoc (h : IsNormal (front ++ [component])) : IsNormal front :=
  (isNormal_snoc_iff.1 h).1

/-- Nothing goes up from the top. -/
theorem IsNormal.parent_notMem (h : IsNormal (.root :: components)) : .parent ∉ Component.root :: components := by
  intro hmem
  obtain ⟨above, below, heq⟩ := List.append_of_mem hmem
  cases above with
  | nil => cases (List.cons.inj heq).1
  | cons first above =>
    obtain ⟨rfl, -⟩ := List.cons.inj heq
    cases h.2 (.root :: above) below heq .root List.mem_cons_self

/-! ### The stack of components -/

/-- One component more leaves a stack in normal form. -/
theorem isNormal_pushNormal (h : IsNormal components) (component : Component) :
    IsNormal (pushNormal components.reverse component).reverse := by
  cases component with
  | current => rwa [pushNormal, List.reverse_reverse]
  | root =>
    show IsNormal (Component.root :: components.reverse).reverse
    rw [List.reverse_cons, List.reverse_reverse]
    exact isNormal_snoc_iff.2 ⟨h, by simp, by simp⟩
  | name s =>
    show IsNormal (Component.name s :: components.reverse).reverse
    rw [List.reverse_cons, List.reverse_reverse]
    exact isNormal_snoc_iff.2 ⟨h, by simp, by simp⟩
  | parent =>
    -- Going up takes a name off the stack, stays at the top, and is put on the stack where neither can be.
    rcases List.eq_nil_or_concat components with rfl | ⟨front, last, rfl⟩
    · exact isNormal_snoc_iff.2 ⟨isNormal_nil, by simp, by simp⟩
    · rw [List.concat_eq_append] at h ⊢
      obtain ⟨hfront, hcurrent, hparent⟩ := isNormal_snoc_iff.1 h
      rw [List.reverse_append]
      cases last with
      | current => exact absurd rfl hcurrent
      | root => simpa [pushNormal] using h
      | name s => simpa [pushNormal] using hfront
      | parent =>
        have hall : IsNormal ((front ++ [.parent]) ++ [.parent]) :=
          isNormal_snoc_iff.2 ⟨h, by simp, fun _ => by simpa [or_imp, forall_and] using hparent rfl⟩
        simpa [pushNormal] using hall

/-- A component that keeps the normal form is put on the stack as it is. -/
theorem pushNormal_of_isNormal (h : IsNormal (front ++ [component])) :
    pushNormal front.reverse component = component :: front.reverse := by
  obtain ⟨-, hcurrent, hparent⟩ := isNormal_snoc_iff.1 h
  cases component with
  | current => exact absurd rfl hcurrent
  | root => rfl
  | name s => rfl
  | parent =>
    -- Nothing but `..` comes before it, so there is no name that it could take off.
    rcases List.eq_nil_or_concat front with rfl | ⟨front, last, rfl⟩
    · rfl
    · obtain rfl : last = .parent := hparent rfl last (by simp)
      simp [pushNormal]

theorem normalComponents_append (front back : List Component) :
    normalComponents (front ++ back) = (back.foldl pushNormal (normalComponents front).reverse).reverse := by
  rw [normalComponents, normalComponents, List.foldl_append, List.reverse_reverse]

theorem isNormal_normalComponents (components : List Component) : IsNormal (normalComponents components) := by
  induction components using List.reverseRecOn with
  | nil => exact isNormal_nil
  | append_singleton front component ih =>
    rw [normalComponents_append]
    exact isNormal_pushNormal ih component

theorem normalComponents_of_isNormal (h : IsNormal components) : normalComponents components = components := by
  induction components using List.reverseRecOn with
  | nil => rfl
  | append_singleton front component ih =>
    rw [normalComponents_append, ih h.of_snoc, List.foldl_cons, List.foldl_nil, pushNormal_of_isNormal h,
      List.reverse_cons, List.reverse_reverse]

/-- What comes after goes on the stack that the normal form gives. -/
theorem normalComponents_append_left (front back : List Component) :
    normalComponents (normalComponents front ++ back) = normalComponents (front ++ back) := by
  rw [normalComponents_append, normalComponents_of_isNormal (isNormal_normalComponents front),
    ← normalComponents_append]

/-! ### Paths -/

/-- The text of a normal form says what has been put on the stack. -/
theorem components_normalize (p : Path) : p.normalize.components = normalComponents p.components := by
  cases h : p.isAbsolute with
  | true =>
    rw [normalize_of_absolute h, components_ofAddress fun s => isName_of_mem_toAddress,
      normalComponents_of_absolute h, toAddress_of_absolute h]
  | false =>
    have hroot : ∀ component ∈ p.components, component ≠ .root := by
      rintro component hmem rfl
      rw [isAbsolute_iff.2 hmem] at h
      cases h
    -- A relative path goes up some steps and then down, and so it is spelled out.
    obtain ⟨up, names, hnormal, hnames⟩ := normalComponents_of_relative hroot
    rw [normalize, hnormal, components_ofComponents_upAndDown up fun s hs => isName_of_mem_components (hnames s hs)]

theorem isAbsolute_normalize (p : Path) : p.normalize.isAbsolute = p.isAbsolute := by
  cases h : p.isAbsolute with
  | true => rw [normalize_of_absolute h, isAbsolute_ofAddress]
  | false =>
    obtain ⟨up, names, -, hnormal⟩ := exists_components_normalize h
    rw [← Bool.not_eq_true, isAbsolute_iff, hnormal]
    simp [upAndDown]

theorem normalize_normalize (p : Path) : p.normalize.normalize = p.normalize := by
  rw [normalize, components_normalize, normalComponents_of_isNormal (isNormal_normalComponents _)]
  rfl

/-- A normal form has one text. -/
theorem normalize_eq_of_same (h : p.normalize.same q.normalize = true) : p.normalize = q.normalize := by
  rw [same, beq_iff_eq, components_normalize, components_normalize] at h
  rw [normalize, normalize, h]

/-- The `.` that a relative path may start with is the one thing that its segments do not say. -/
theorem foldl_pushNormal_of_relative (hq : q.isAbsolute = false) (stack : List Component) :
    ((Text.pieces '/' q.text.toList).filterMap Path.ofSegment?).foldl pushNormal stack =
      q.components.foldl pushNormal stack := by
  rw [components]
  unfold componentsOf
  split
  · rename_i segment rest hpieces
    obtain ⟨text, htext, -⟩ := Text.exists_of_pieces_eq_nil_cons hpieces (List.cons_ne_nil _ _)
    rw [isAbsolute, htext] at hq
    cases hq
  · rename_i rest hpieces
    rw [hpieces]
    rfl
  · rfl

theorem normalComponents_join (hq : q.isAbsolute = false) (p : Path) :
    normalComponents (p.join q).components = normalComponents (p.components ++ q.components) := by
  by_cases hp : p.text = ""
  · obtain rfl : p = ⟨""⟩ := by rw [← hp]
    have hjoin : (Path.mk "").join q = q := by simp [join, hq]
    rw [hjoin]
    rfl
  · rw [components_join_relative hq hp, normalComponents_append, normalComponents_append,
      foldl_pushNormal_of_relative hq]

/-- A path may be taken to its normal form before another is joined to it. -/
theorem normalize_join (p q : Path) : (p.join q).normalize = (p.normalize.join q).normalize := by
  cases hq : q.isAbsolute with
  | true => rw [join, join, hq, if_pos rfl, if_pos rfl]
  | false =>
    rw [normalize, normalize, normalComponents_join hq, normalComponents_join hq, components_normalize,
      normalComponents_append_left]

end Path

namespace Property.Resolver

variable {target other : Path}

/-- Only the normal form of a target is looked at. -/
theorem resolve_eq_of_normalize (resolver : Resolver) (h : target.normalize = other.normalize) :
    resolver.discover target = resolver.discover other ∧ resolver.load target = resolver.load other ∧
      resolver.resolve target = resolver.resolve other := by
  have hdiscover : resolver.discover target = resolver.discover other := by
    unfold discover
    rw [h]
  have hload : resolver.load target = resolver.load other := by rw [load, load, h, hdiscover]
  exact ⟨hdiscover, hload, by rw [resolve, resolve, hload]⟩

end Property.Resolver

namespace Path

/-- The normal form of a path has no `.`, and a `..` only where it leads a relative path; it is absolute
when the path is, and says the same component by component when the path is in normal form already. A path
can be taken to its normal form before another is joined to it, or once more, with the same result, and
properties are the same for any two targets whose normal forms are. -/
theorem normalize_canonical (p q : Path) :
    IsNormal p.normalize.components ∧
      p.normalize.isAbsolute = p.isAbsolute ∧
      (p.isAbsolute = true → .parent ∉ p.normalize.components) ∧
      (p.normalize.components = p.components ↔ IsNormal p.components) ∧
      (p.join q).normalize = (p.normalize.join q).normalize ∧
      p.normalize.normalize = p.normalize ∧
      (p.normalize.same q.normalize = true → ∀ resolver : Property.Resolver,
        resolver.discover p = resolver.discover q ∧ resolver.load p = resolver.load q ∧
          resolver.resolve p = resolver.resolve q) := by
  have hnormal : IsNormal p.normalize.components := by
    rw [components_normalize]
    exact isNormal_normalComponents p.components
  refine ⟨hnormal, isAbsolute_normalize p, fun h => ?_, ⟨fun h => h ▸ hnormal, fun h => ?_⟩, normalize_join p q,
    normalize_normalize p, fun h resolver => resolver.resolve_eq_of_normalize (normalize_eq_of_same h)⟩
  · have habsolute : p.normalize.isAbsolute = true := by rw [isAbsolute_normalize, h]
    obtain ⟨rest, hrest, -⟩ := components_of_absolute habsolute
    rw [hrest] at hnormal ⊢
    exact hnormal.parent_notMem
  · rw [components_normalize, normalComponents_of_isNormal h]

/-- Up from the top and down again, and the same place without the detours. -/
theorem normalize_canonical_detours :
    (Path.mk "/../t/c/..").isAbsolute = true ∧
      (Path.mk "/../t/c/..").normalize.same (Path.mk "//t/.").normalize = true ∧
      .parent ∉ (Path.mk "/../t/c/..").normalize.components ∧
      ∀ resolver : Property.Resolver, resolver.resolve ⟨"/../t/c/.."⟩ = resolver.resolve ⟨"//t/."⟩ := by
  have habsolute : (Path.mk "/../t/c/..").isAbsolute = true := by decide
  have hsame : (Path.mk "/../t/c/..").normalize.same (Path.mk "//t/.").normalize = true := by decide +kernel
  obtain ⟨-, -, hparent, -, -, -, hresolver⟩ := normalize_canonical ⟨"/../t/c/.."⟩ ⟨"//t/."⟩
  exact ⟨habsolute, hsame, hparent habsolute, fun resolver => (hresolver hsame resolver).2.2⟩

end Path

end LineEndings

/-
Absolute paths and addresses.

An address is a list of names, and `Path.ofAddress` spells it out. Between the two nothing is lost:

* `normalize_of_absolute` — the normal form of an absolute path spells out its address, which is where
  following the components one by one leads (`Path.enter`);
* `toAddress_ofAddress` — a path that spells out an address leads there;
* `ancestors_ofAddress` — the paths above it spell out the beginnings of the address, longest first;
* `join_ofAddress`, `after?_ofAddress` — one more name, and what is left past a beginning.
-/
import LineEndings.Path.Normal
import Mathlib.Data.List.Induction
import Mathlib.Data.List.Infix
import Mathlib.Data.List.Nodup

namespace LineEndings.Path

/-! ### Names -/

theorem ofSegment?_eq_name_iff {segment : List Char} {s : String} :
    ofSegment? segment = some (.name s) ↔
      segment ≠ [] ∧ segment ≠ ['.'] ∧ segment ≠ ['.', '.'] ∧ s = String.ofList segment := by
  unfold ofSegment?
  split
  · simp
  · simp
  · simp
  · rename_i h₁ h₂ h₃
    rw [Option.some_inj, Component.name.injEq]
    exact ⟨fun h => ⟨h₁, h₂, h₃, h.symm⟩, fun h => h.2.2.2.symm⟩

theorem IsName.ofSegment? {s : String} (h : IsName s) : ofSegment? s.toList = some (.name s) := by
  obtain ⟨hempty, hdot, hdots, -⟩ := h
  rw [ofSegment?_eq_name_iff]
  refine ⟨?_, ?_, ?_, String.ofList_toList.symm⟩
  · intro he
    exact hempty (String.toList_inj.1 he)
  · intro he
    exact hdot (String.toList_inj.1 he)
  · intro he
    exact hdots (String.toList_inj.1 he)

theorem isName_of_ofSegment? {segment : List Char} {s : String} (hslash : '/' ∉ segment)
    (h : ofSegment? segment = some (.name s)) : IsName s := by
  obtain ⟨hempty, hdot, hdots, rfl⟩ := ofSegment?_eq_name_iff.1 h
  refine ⟨?_, ?_, ?_, by rwa [String.toList_ofList]⟩
  · intro he
    exact hempty (by rw [← String.toList_ofList (l := segment), he]; rfl)
  · intro he
    exact hdot (by rw [← String.toList_ofList (l := segment), he]; rfl)
  · intro he
    exact hdots (by rw [← String.toList_ofList (l := segment), he]; rfl)

theorem mem_componentsOf_name {segments : List (List Char)} {s : String}
    (h : .name s ∈ componentsOf segments) :
    ∃ segment ∈ segments, Path.ofSegment? segment = some (.name s) := by
  unfold componentsOf at h
  split at h
  · rcases List.mem_cons.1 h with h | h
    · cases h
    · obtain ⟨segment, hmem, hs⟩ := List.mem_filterMap.1 h
      exact ⟨segment, List.mem_cons_of_mem _ hmem, hs⟩
  · rcases List.mem_cons.1 h with h | h
    · cases h
    · obtain ⟨segment, hmem, hs⟩ := List.mem_filterMap.1 h
      exact ⟨segment, List.mem_cons_of_mem _ hmem, hs⟩
  · exact List.mem_filterMap.1 h

theorem isName_of_mem_components {p : Path} {s : String} (h : .name s ∈ p.components) :
    IsName s := by
  obtain ⟨segment, hmem, hs⟩ := mem_componentsOf_name h
  exact isName_of_ofSegment? (Text.not_mem_of_mem_pieces hmem) hs

theorem isName_of_mem_toAddress {p : Path} {s : String} (h : s ∈ p.toAddress) : IsName s := by
  obtain ⟨component, hmem, hs⟩ := List.mem_filterMap.1 h
  cases component with
  | name s' =>
    obtain rfl := Option.some.inj hs
    exact isName_of_mem_components hmem
  | _ => cases hs

theorem isName_snoc {a : Address} {name : String} (ha : ∀ s ∈ a, IsName s) (hname : IsName name) :
    ∀ s ∈ a ++ [name], IsName s := by
  intro s hs
  rcases List.mem_append.1 hs with hs | hs
  · exact ha s hs
  · exact List.mem_singleton.1 hs ▸ hname

/-! ### Spelling out an address -/

theorem toList_ofAddress (a : Address) :
    (ofAddress a).text.toList = '/' :: Text.joined '/' (a.map String.toList) := by
  show (String.ofList ('/' :: Text.joined '/' ((a.map Component.name).map componentText))).toList = _
  rw [String.toList_ofList, List.map_map]
  rfl

theorem isAbsolute_ofAddress (a : Address) : (ofAddress a).isAbsolute = true := by
  rw [isAbsolute, toList_ofAddress]
  rfl

theorem pieces_joined_names {a : Address} (hne : a ≠ []) (h : ∀ s ∈ a, IsName s) :
    Text.pieces '/' (Text.joined '/' (a.map String.toList)) = a.map String.toList := by
  refine Text.pieces_joined (by simpa using hne) fun piece hpiece => ?_
  obtain ⟨s, hs, rfl⟩ := List.mem_map.1 hpiece
  exact (h s hs).2.2.2

theorem filterMap_ofSegment?_names {a : Address} (h : ∀ s ∈ a, IsName s) :
    (a.map String.toList).filterMap Path.ofSegment? = a.map .name := by
  induction a with
  | nil => rfl
  | cons s a ih =>
    rw [List.map_cons, List.filterMap_cons_some (h s (by simp)).ofSegment?, List.map_cons,
      ih fun s' hs' => h s' (by simp [hs'])]

theorem components_of_cons_slash {text : List Char} :
    componentsOf (Text.pieces '/' ('/' :: text)) =
      .root :: (Text.pieces '/' text).filterMap Path.ofSegment? := by
  rw [Text.pieces_cons, if_pos rfl]
  cases hp : Text.pieces '/' text with
  | nil => exact absurd hp (Text.pieces_ne_nil '/' text)
  | cons segment rest => rfl

theorem components_ofAddress {a : Address} (h : ∀ s ∈ a, IsName s) :
    (ofAddress a).components = .root :: a.map .name := by
  rw [components, toList_ofAddress, components_of_cons_slash]
  by_cases hne : a = []
  · subst hne
    rfl
  · rw [pieces_joined_names hne h, filterMap_ofSegment?_names h]

theorem ofAddress_injective {a b : Address} (ha : ∀ s ∈ a, IsName s) (hb : ∀ s ∈ b, IsName s)
    (h : ofAddress a = ofAddress b) : a = b := by
  have hc := congrArg components h
  rw [components_ofAddress ha, components_ofAddress hb, List.cons_inj_right] at hc
  exact List.map_injective_iff.2 (fun _ _ => Component.name.inj) hc

/-! ### Where a path leads -/

/-- Where one component leads from an address. -/
def enter (here : Address) : Component → Address
  | .parent => here.dropLast
  | .name s => here ++ [s]
  | _ => here

theorem foldl_pushNormal {rest : List Component} (h : ∀ component ∈ rest, component ≠ .root)
    (here : Address) :
    rest.foldl pushNormal ((here.map .name).reverse ++ [.root]) =
      ((rest.foldl enter here).map .name).reverse ++ [.root] := by
  induction rest generalizing here with
  | nil => rfl
  | cons component rest ih =>
    have hrest := ih fun c hc => h c (by simp [hc])
    rw [List.foldl_cons, List.foldl_cons, ← hrest]
    congr 1
    cases component with
    | root => exact absurd rfl (h .root (by simp))
    | current => rfl
    | parent =>
      rcases List.eq_nil_or_concat here with rfl | ⟨front, s, rfl⟩
      · rfl
      · simp [enter, pushNormal]
    | name s => simp [enter, pushNormal]

theorem root_not_mem_filterMap (segments : List (List Char)) :
    ∀ component ∈ segments.filterMap Path.ofSegment?, component ≠ .root := by
  rintro component hmem rfl
  obtain ⟨segment, -, hs⟩ := List.mem_filterMap.1 hmem
  unfold Path.ofSegment? at hs
  split at hs <;> cases hs

theorem components_of_absolute {p : Path} (h : p.isAbsolute = true) :
    ∃ rest, p.components = .root :: rest ∧ ∀ component ∈ rest, component ≠ .root := by
  rw [isAbsolute, beq_iff_eq] at h
  obtain ⟨text, htext⟩ := List.head?_eq_some_iff.1 h
  rw [components, htext, components_of_cons_slash]
  exact ⟨_, rfl, root_not_mem_filterMap _⟩

theorem normalComponents_of_absolute {p : Path} (h : p.isAbsolute = true) :
    normalComponents p.components = .root :: (p.components.foldl enter []).map .name := by
  obtain ⟨rest, hp, hroot⟩ := components_of_absolute h
  have hfold := foldl_pushNormal hroot []
  rw [normalComponents, hp]
  show (rest.foldl pushNormal [.root]).reverse = .root :: (rest.foldl enter []).map .name
  rw [List.map_nil, List.reverse_nil, List.nil_append] at hfold
  rw [hfold, List.reverse_append, List.reverse_reverse]
  rfl

theorem isName_of_mem_foldl {components : List Component} {here : Address} {s : String}
    (h : s ∈ components.foldl enter here) : s ∈ here ∨ .name s ∈ components := by
  induction components generalizing here with
  | nil => exact Or.inl h
  | cons component rest ih =>
    rcases ih h with h | h
    · cases component with
      | parent => exact Or.inl (List.mem_of_mem_dropLast h)
      | name s' =>
        rcases List.mem_append.1 h with h | h
        · exact Or.inl h
        · obtain rfl := List.mem_singleton.1 h
          exact Or.inr (by simp)
      | root => exact Or.inl h
      | current => exact Or.inl h
    · exact Or.inr (List.mem_cons_of_mem _ h)

/-- The address of an absolute path is where its components lead. -/
theorem toAddress_of_absolute {p : Path} (h : p.isAbsolute = true) :
    p.toAddress = p.components.foldl enter [] := by
  have hnames : ∀ s ∈ p.components.foldl enter [], IsName s := by
    intro s hs
    rcases isName_of_mem_foldl hs with hs | hs
    · cases hs
    · exact isName_of_mem_components hs
  have hnormal : p.normalize = ofAddress (p.components.foldl enter []) := by
    rw [normalize, normalComponents_of_absolute h]
    rfl
  rw [toAddress, hnormal, components_ofAddress hnames, List.filterMap_cons_none rfl, List.filterMap_map]
  exact List.filterMap_some

theorem normalize_of_absolute {p : Path} (h : p.isAbsolute = true) :
    p.normalize = ofAddress p.toAddress := by
  rw [toAddress_of_absolute h, normalize, normalComponents_of_absolute h]
  rfl

theorem foldl_enter_names (here names : Address) :
    (names.map Component.name).foldl enter here = here ++ names := by
  induction names generalizing here with
  | nil => rw [List.append_nil]; rfl
  | cons s names ih =>
    rw [List.map_cons, List.foldl_cons, ih]
    simp [enter]

theorem toAddress_ofAddress {a : Address} (h : ∀ s ∈ a, IsName s) : (ofAddress a).toAddress = a := by
  rw [toAddress_of_absolute (isAbsolute_ofAddress a), components_ofAddress h, List.foldl_cons]
  exact foldl_enter_names [] a

theorem normalize_ofAddress {a : Address} (h : ∀ s ∈ a, IsName s) :
    (ofAddress a).normalize = ofAddress a := by
  rw [normalize_of_absolute (isAbsolute_ofAddress a), toAddress_ofAddress h]

/-! ### Above and below an address -/

theorem isIdle_name {s : String} (h : IsName s) : isIdle s.toList = false := by
  obtain ⟨hempty, hdot, -, -⟩ := ofSegment?_eq_name_iff.1 h.ofSegment?
  simp [isIdle, hempty, hdot]

theorem stripIdle_names {a : Address} (h : ∀ s ∈ a, IsName s) :
    stripIdle (a.map String.toList) = a.map String.toList := by
  rcases List.eq_nil_or_concat a with rfl | ⟨front, s, rfl⟩
  · rfl
  · have hs : isIdle s.toList = false := isIdle_name (h s (by simp))
    rw [stripIdle, List.concat_eq_append, List.map_append, List.reverse_append]
    show (List.dropWhile isIdle (s.toList :: _)).reverse = _
    rw [List.dropWhile_cons_of_neg (by rw [hs]; exact Bool.false_ne_true)]
    simp

theorem parentText?_ofAddress {a : Address} (h : ∀ s ∈ a, IsName s) :
    parentText? (ofAddress a).text.toList =
      if a = [] then none else some (ofAddress a.dropLast).text.toList := by
  rw [toList_ofAddress, toList_ofAddress, parentText?]
  simp only [splitLead]
  by_cases hne : a = []
  · subst hne
    rfl
  · have hlast : stripIdle (a.map String.toList).dropLast = a.dropLast.map String.toList := by
      rw [← List.map_dropLast, stripIdle_names fun s hs => h s (List.mem_of_mem_dropLast hs)]
    rw [pieces_joined_names hne h, stripIdle_names h, if_neg hne, ← hlast]
    cases a with
    | nil => exact absurd rfl hne
    | cons s a => rfl

theorem parent?_ofAddress {a : Address} (h : ∀ s ∈ a, IsName s) :
    (ofAddress a).parent? = if a = [] then none else some (ofAddress a.dropLast) := by
  rw [parent?, parentText?_ofAddress h]
  by_cases hne : a = []
  · rw [if_pos hne, if_pos hne]
    rfl
  · rw [if_neg hne, if_neg hne, Option.map_some, String.ofList_toList]

theorem nodup_inits {α : Type} (l : List α) : l.inits.Nodup := by
  have hlengths : l.inits.map List.length = List.range l.inits.length := by
    refine List.ext_getElem (by simp) fun n h₁ h₂ => ?_
    rw [List.length_map, List.length_inits] at h₁
    rw [List.getElem_map, List.getElem_inits, List.length_take, List.getElem_range]
    omega
  exact List.Nodup.of_map List.length (hlengths ▸ List.nodup_range)

theorem ancestors_ofAddress {a : Address} (h : ∀ s ∈ a, IsName s) :
    (ofAddress a).ancestors = a.inits.reverse.map ofAddress := by
  induction a using List.reverseRecOn with
  | nil =>
    rw [ancestors.eq_def]
    split
    · rfl
    · rename_i q hq
      rw [parent?_ofAddress h, if_pos rfl] at hq
      cases hq
  | append_singleton a s ih =>
    have ha : ∀ s ∈ a, IsName s := fun s' hs' => h s' (List.mem_append_left _ hs')
    rw [ancestors.eq_def]
    split
    · rename_i hq
      rw [parent?_ofAddress h, if_neg (by simp)] at hq
      cases hq
    · rename_i q hq
      rw [parent?_ofAddress h, if_neg (by simp), List.dropLast_concat, Option.some_inj] at hq
      rw [← hq, ih ha, List.inits_append]
      simp

theorem getLast_joined_names {a : Address} (hne : a ≠ []) (h : ∀ s ∈ a, IsName s) :
    ('/' :: Text.joined '/' (a.map String.toList)).getLast? ≠ some '/' := by
  obtain ⟨front, s, rfl⟩ := (List.eq_nil_or_concat a).resolve_left hne
  have hs := h s (by simp)
  obtain ⟨hempty, -⟩ := ofSegment?_eq_name_iff.1 hs.ofSegment?
  -- The last character is that of the last name, which is none of its own slashes.
  have hlast : ∃ u, '/' :: Text.joined '/' ((front.concat s).map String.toList) = u ++ s.toList := by
    by_cases hfront : front = []
    · subst hfront
      exact ⟨['/'], rfl⟩
    · rw [List.concat_eq_append, List.map_append, List.map_singleton,
        Text.joined_snoc '/' (by simpa using hfront)]
      exact ⟨'/' :: (Text.joined '/' (front.map String.toList) ++ ['/']), by simp⟩
  obtain ⟨u, hu⟩ := hlast
  rw [hu, List.getLast?_append_of_ne_nil _ hempty]
  intro he
  exact hs.2.2.2 (List.mem_of_getLast? he)

theorem join_ofAddress {a : Address} {s : String} (ha : ∀ s ∈ a, IsName s) (hs : IsName s) :
    (ofAddress a).join ⟨s⟩ = ofAddress (a ++ [s]) := by
  have hrelative : (Path.mk s).isAbsolute = false := by
    rw [isAbsolute, beq_eq_false_iff_ne]
    intro he
    exact hs.2.2.2 (List.mem_of_mem_head? he)
  have htext : (ofAddress (a ++ [s])).text.toList =
      '/' :: Text.joined '/' (a.map String.toList ++ [s.toList]) := by
    rw [toList_ofAddress, List.map_append, List.map_singleton]
  rw [join, hrelative, if_neg Bool.false_ne_true]
  by_cases hne : a = []
  · subst hne
    rw [if_pos (by simp [toList_ofAddress, Text.joined])]
    show Path.mk _ = Path.mk (ofAddress ([] ++ [s])).text
    rw [Path.mk.injEq, ← String.toList_inj, htext, String.toList_append, toList_ofAddress]
    rfl
  · have hlast := getLast_joined_names hne ha
    rw [if_neg (by simp [toList_ofAddress, hlast, String.isEmpty_iff, ← String.toList_inj])]
    show Path.mk _ = Path.mk (ofAddress (a ++ [s])).text
    rw [Path.mk.injEq, ← String.toList_inj, htext, String.toList_append, String.toList_append,
      toList_ofAddress, Text.joined_snoc '/' (by simpa using hne)]
    simp

theorem isAbsolute_join {p : Path} (h : p.isAbsolute = true) (q : Path) :
    (p.join q).isAbsolute = true := by
  have happend : ∀ text : String, (Path.mk (p.text ++ text)).isAbsolute = true := by
    intro text
    rw [isAbsolute, beq_iff_eq] at h ⊢
    obtain ⟨rest, hrest⟩ := List.head?_eq_some_iff.1 h
    rw [String.toList_append, hrest]
    rfl
  unfold join
  split
  · assumption
  · split
    · exact happend _
    · rw [String.append_assoc]
      exact happend _

theorem isAbsolute_joined_names {rest : Address} (h : ∀ s ∈ rest, IsName s) :
    (Path.mk (String.ofList (Text.joined '/' (rest.map String.toList)))).isAbsolute = false := by
  rw [isAbsolute, String.toList_ofList, beq_eq_false_iff_ne]
  cases rest with
  | nil => simp [Text.joined]
  | cons s rest =>
    obtain ⟨hempty, -, -, hslash⟩ := h s (by simp)
    have hne : s.toList ≠ [] := by simpa using hempty
    obtain ⟨c, t, hs⟩ := List.exists_cons_of_ne_nil hne
    intro hhead
    have hc : c = '/' := by
      cases rest <;> simpa [Text.joined, hs] using hhead
    exact hslash (by rw [hs, hc]; exact List.mem_cons_self)

theorem isPrefixOf?_eq_some_iff {l m rest : List Component} :
    l.isPrefixOf? m = some rest ↔ m = l ++ rest := by
  induction l generalizing m with
  | nil => simp [List.isPrefixOf?]
  | cons c l ih =>
    cases m with
    | nil => simp [List.isPrefixOf?]
    | cons d m =>
      by_cases hcd : c = d
      · simp [List.isPrefixOf?, hcd, ih]
      · simp [List.isPrefixOf?, hcd, Ne.symm hcd]

/-- What is left of a path past a directory is what the directory does not spell. -/
theorem after?_eq_some_iff {p dir : Path} {rest : List Component} :
    p.after? dir = some rest ↔ p.components = dir.components ++ rest :=
  isPrefixOf?_eq_some_iff

theorem after?_ofAddress {a b : Address} (h : ∀ s ∈ a ++ b, IsName s) :
    (ofAddress (a ++ b)).after? (ofAddress a) = some (b.map .name) := by
  rw [after?_eq_some_iff, components_ofAddress h,
    components_ofAddress fun s hs => h s (List.mem_append_left _ hs), List.map_append, List.cons_append]

end LineEndings.Path

/-
The components of a path, and of the paths above it.

Whatever idle segments a path is written with, and whether it is absolute or not, its parent has its
components but the last, and a name joined to it is one component more. So

* `map_components_ancestors` — the components of the paths above a path are the beginnings of its own,
  longest first;
* `components_join`, `normalize_join_names` — a name joined to a path is one component more, and names with slashes
  between them lead down from an address;
* `exists_components_normalize` — the normal form of a relative path goes up first and then down;
* `IsStraight.components_eq` — an absolute path without a `..` names its address component by component.
-/
import LineEndings.Proofs.Path.Address
import Mathlib.Data.List.TakeWhile
import Mathlib.Data.Set.List

namespace LineEndings.Path

variable {p q : Path}

/-! ### Components -/

/-- What the slash or the dot that a text starts with stands for. -/
def leadComponents : List Char → List Component
  | ['/'] => [.root]
  | ['.'] => [.current]
  | _ => []

theorem ofSegment?_eq_none_iff {segment : List Char} :
    ofSegment? segment = none ↔ isIdle segment = true := by
  unfold ofSegment?
  split <;> simp_all [isIdle]

/-- No idle segment is cut off but from the end. -/
theorem exists_append_stripIdle (segments : List (List Char)) :
    ∃ idle, segments = stripIdle segments ++ idle ∧ ∀ segment ∈ idle, isIdle segment = true := by
  refine ⟨(segments.reverse.takeWhile isIdle).reverse, ?_, fun segment hmem => ?_⟩
  · rw [stripIdle, ← List.reverse_append, List.takeWhile_append_dropWhile, List.reverse_reverse]
  · exact List.mem_takeWhile_imp (List.mem_reverse.1 hmem)

theorem filterMap_stripIdle (segments : List (List Char)) :
    (stripIdle segments).filterMap Path.ofSegment? = segments.filterMap Path.ofSegment? := by
  obtain ⟨idle, hsegments, hidle⟩ := exists_append_stripIdle segments
  have hnone : idle.filterMap Path.ofSegment? = [] :=
    List.filterMap_eq_nil_iff.2 fun segment hmem => ofSegment?_eq_none_iff.2 (hidle segment hmem)
  conv_rhs => rw [hsegments, List.filterMap_append, hnone, List.append_nil]

/-- The components of a text are those of its lead and those of its segments. -/
theorem components_splitLead (text : List Char) :
    componentsOf (Text.pieces '/' text) =
      leadComponents (splitLead text).1 ++
        (Text.pieces '/' (splitLead text).2).filterMap Path.ofSegment? := by
  unfold splitLead
  split
  · exact components_of_cons_slash
  · rfl
  · rename_i body
    rw [show '.' :: '/' :: body = ['.'] ++ '/' :: body from rfl, Text.pieces_append_sep (by decide),
      Text.pieces_cons, if_pos rfl]
    rfl
  · rename_i hslash hdot hdots
    show componentsOf _ = (Text.pieces '/' text).filterMap Path.ofSegment?
    have htext := Text.joined_pieces '/' text
    unfold componentsOf
    split
    · rename_i segment rest hpieces
      rw [hpieces, Text.joined_cons_of_ne_nil _ _ (by simp)] at htext
      exact absurd htext.symm (hslash _)
    · rename_i rest hpieces
      rw [hpieces] at htext
      cases rest with
      | nil => exact absurd htext.symm hdot
      | cons segment rest => exact absurd htext.symm (hdots _)
    · rfl

/-- A text cut at the end of a segment has the same lead. -/
theorem splitLead_of_cut {text lead front tail : List Char}
    (h : splitLead text = (lead, front ++ tail)) (htail : front ≠ [] → ∀ c ∈ tail.head?, c = '/') :
    splitLead (lead ++ front) = (lead, front) := by
  unfold splitLead at h
  split at h
  · obtain ⟨rfl, -⟩ := Prod.mk.inj h
    rfl
  · obtain ⟨rfl, hbody⟩ := Prod.mk.inj h
    obtain ⟨rfl, -⟩ := List.append_eq_nil_iff.1 hbody.symm
    rfl
  · obtain ⟨rfl, hbody⟩ := Prod.mk.inj h
    cases front with
    | nil => rfl
    | cons c front =>
      obtain ⟨rfl, -⟩ := List.cons.inj hbody
      rfl
  · -- Had the front a lead, then so had the text.
    rename_i hslash hdot hdots
    obtain ⟨rfl, rfl⟩ := Prod.mk.inj h
    unfold splitLead
    split
    · rename_i body hfront
      exact absurd (by rw [← List.nil_append front, hfront]; rfl) (hslash (body ++ tail))
    · rename_i hfront
      obtain rfl : front = ['.'] := hfront
      cases tail with
      | nil => exact absurd rfl hdot
      | cons c tail =>
        obtain rfl := htail (by simp) c rfl
        exact absurd rfl (hdots tail)
    · rename_i body hfront
      exact absurd (by rw [← List.nil_append front, hfront]; rfl) (hdots (body ++ tail))
    · rfl

/-! ### Parents -/

/-- The path that a lead and some segments spell. -/
theorem components_lead_joined {text lead : List Char} {segments : List (List Char)}
    (h : splitLead text = (lead, Text.joined '/' segments)) {front : List (List Char)}
    (hfront : front <+: segments) (hslash : ∀ segment ∈ segments, '/' ∉ segment) :
    (Path.mk (String.ofList (lead ++ Text.joined '/' front))).components =
      leadComponents lead ++ front.filterMap Path.ofSegment? := by
  have hsplit : splitLead (lead ++ Text.joined '/' front) = (lead, Text.joined '/' front) := by
    by_cases hne : front = []
    · subst hne
      exact splitLead_of_cut (by rw [h]; rfl) (by simp [Text.joined])
    · obtain ⟨tail, hjoined, htail⟩ := Text.exists_joined_append '/' hfront hne
      exact splitLead_of_cut (by rw [h, hjoined]) fun _ => htail
  rw [components, String.toList_ofList, components_splitLead, hsplit]
  by_cases hne : front = []
  · subst hne
    rfl
  · rw [Text.pieces_joined hne fun segment hmem => hslash segment (hfront.subset hmem)]

theorem exists_stripIdle_eq_snoc {segments : List (List Char)} (h : stripIdle segments ≠ []) :
    ∃ front last component, stripIdle segments = front ++ [last] ∧
      Path.ofSegment? last = some component ∧ component ≠ .root := by
  have hlast := getLast_stripIdle h
  cases hcomponent : Path.ofSegment? ((stripIdle segments).getLast h) with
  | none =>
    rw [ofSegment?_eq_none_iff.1 hcomponent] at hlast
    cases hlast
  | some component =>
    refine ⟨_, _, component, (List.dropLast_concat_getLast h).symm, hcomponent, ?_⟩
    exact root_not_mem_filterMap [_] component (by rw [List.filterMap_cons_some hcomponent]; simp)

/-- The parent has the components but the last, which is not the top. -/
theorem components_of_parent? (h : p.parent? = some q) :
    ∃ component, component ≠ .root ∧ p.components = q.components ++ [component] := by
  obtain ⟨text, htext, rfl⟩ := Option.map_eq_some_iff.1 h
  unfold parentText? at htext
  generalize hsplit : splitLead p.text.toList = parts at htext
  obtain ⟨lead, body⟩ := parts
  have hp : p.components =
      leadComponents lead ++ (stripIdle (Text.pieces '/' body)).filterMap Path.ofSegment? := by
    rw [components, components_splitLead, hsplit, filterMap_stripIdle]
  dsimp only at htext
  split at htext
  · -- A lone dot, with nothing but idle segments after it.
    rename_i hstrip
    split at htext
    · rename_i hlead
      obtain rfl := Option.some.inj htext
      exact ⟨.current, by simp, by rw [hp, hstrip, hlead]; rfl⟩
    · cases htext
  · rename_i hne
    obtain rfl := Option.some.inj htext
    obtain ⟨front, last, component, hstrip, hlast, hroot⟩ := exists_stripIdle_eq_snoc hne
    have hprefix := stripIdle_isPrefix (Text.pieces '/' body)
    rw [hstrip] at hp hprefix
    have hfront : stripIdle front <+: Text.pieces '/' body :=
      (stripIdle_isPrefix front).trans ((List.prefix_append front [last]).trans hprefix)
    refine ⟨component, hroot, ?_⟩
    rw [hstrip, List.dropLast_concat, components_lead_joined (by rw [hsplit, Text.joined_pieces]) hfront
      fun _ => Text.not_mem_of_mem_pieces, filterMap_stripIdle, hp, List.filterMap_append,
      List.filterMap_cons_some hlast, List.append_assoc, List.filterMap_nil]

/-- Only the top and the empty path have no parent. -/
theorem components_of_parent?_eq_none (h : p.parent? = none) :
    p.components = [] ∨ p.components = [.root] := by
  have htext := Option.map_eq_none_iff.1 h
  unfold parentText? at htext
  generalize hsplit : splitLead p.text.toList = parts at htext
  obtain ⟨lead, body⟩ := parts
  dsimp only at htext
  split at htext
  · rename_i hstrip
    split at htext
    · cases htext
    · rename_i hlead
      have hp : p.components = leadComponents lead := by
        rw [components, components_splitLead, hsplit, ← filterMap_stripIdle, hstrip]
        exact List.append_nil _
      rw [hp]
      unfold leadComponents
      split
      · exact Or.inr rfl
      · exact absurd rfl hlead
      · exact Or.inl rfl
  · cases htext

theorem isAbsolute_iff : p.isAbsolute = true ↔ .root ∈ p.components := by
  constructor
  · intro h
    obtain ⟨rest, hp, -⟩ := components_of_absolute h
    rw [hp]
    exact List.mem_cons_self
  · intro h
    rw [components, components_splitLead] at h
    -- No segment stands for the top, so it is the lead that does.
    rcases List.mem_append.1 h with h | h
    · rw [isAbsolute, beq_iff_eq]
      generalize p.text.toList = text at h ⊢
      unfold splitLead at h
      split at h <;> simp_all [leadComponents]
    · exact absurd rfl (root_not_mem_filterMap _ _ h)

theorem isAbsolute_of_parent? (h : p.parent? = some q) : q.isAbsolute = p.isAbsolute := by
  obtain ⟨component, hroot, hp⟩ := components_of_parent? h
  rw [Bool.eq_iff_iff, isAbsolute_iff, isAbsolute_iff, hp]
  simp [hroot.symm]

theorem ancestors_of_parent? (h : p.parent? = some q) : p.ancestors = p :: q.ancestors := by
  rw [ancestors.eq_def]
  split
  · rename_i hnone
    rw [h] at hnone
    cases hnone
  · rename_i q' hq'
    rw [h] at hq'
    rw [Option.some.inj hq']

theorem ancestors_of_parent?_eq_none (h : p.parent? = none) : p.ancestors = [p] := by
  rw [ancestors.eq_def]
  split
  · rfl
  · rename_i q hq
    rw [h] at hq
    cases hq

/-- The paths above a path have the beginnings of its components, longest first, down to the top if it is
absolute and to nothing if it is not. -/
theorem map_components_ancestors (p : Path) :
    p.ancestors.map components =
      (if p.isAbsolute then p.components.inits.tail else p.components.inits).reverse := by
  induction p using ancestors.induct with
  | case1 p hp =>
    rw [ancestors_of_parent?_eq_none hp, List.map_singleton]
    rcases components_of_parent?_eq_none hp with hnil | htop
    · have hrelative : p.isAbsolute = false := by
        rw [← Bool.not_eq_true, isAbsolute_iff, hnil]
        exact List.not_mem_nil
      rw [hrelative, hnil]
      rfl
    · have habsolute : p.isAbsolute = true := by
        rw [isAbsolute_iff, htop]
        exact List.mem_cons_self
      rw [habsolute, htop]
      rfl
  | case2 p q hq ih =>
    obtain ⟨component, -, hp⟩ := components_of_parent? hq
    rw [ancestors_of_parent? hq, List.map_cons, ih, isAbsolute_of_parent? hq, hp, List.inits_append]
    cases p.isAbsolute with
    | true =>
      have hne : q.components.inits ≠ [] := by simp [← List.length_pos_iff, List.length_inits]
      simp [List.tail_append_of_ne_nil hne]
    | false => simp

theorem isAbsolute_of_mem_ancestors (h : q ∈ p.ancestors) : q.isAbsolute = p.isAbsolute := by
  induction p using ancestors.induct with
  | case1 p hp =>
    rw [ancestors_of_parent?_eq_none hp, List.mem_singleton] at h
    rw [h]
  | case2 p parent hparent ih =>
    rw [ancestors_of_parent? hparent] at h
    rcases List.mem_cons.1 h with rfl | h
    · rfl
    · rw [ih h, isAbsolute_of_parent? hparent]

/-- A path above another has a beginning of its components. -/
theorem exists_of_mem_ancestors (h : q ∈ p.ancestors) : ∃ rest, p.components = q.components ++ rest := by
  have hmem : q.components ∈ p.ancestors.map components := List.mem_map_of_mem h
  rw [map_components_ancestors, List.mem_reverse] at hmem
  have hinits : q.components ∈ p.components.inits := by
    split at hmem
    · exact List.mem_of_mem_tail hmem
    · exact hmem
  obtain ⟨rest, hrest⟩ := (List.mem_inits _ _).1 hinits
  exact ⟨rest, hrest.symm⟩

/-- The last of the paths above a relative path is empty. -/
theorem exists_mem_ancestors_of_relative (h : p.isAbsolute = false) :
    ∃ q ∈ p.ancestors, q.components = [] := by
  have hmem : [] ∈ p.ancestors.map components := by
    rw [map_components_ancestors, h, if_neg Bool.false_ne_true, List.mem_reverse, List.mem_inits]
    exact List.nil_prefix
  exact List.mem_map.1 hmem

/-! ### Joining -/

/-- Segments after the first stand for what they say, and so does the first but for a lead. -/
theorem componentsOf_of_first {segment : List Char} (hempty : segment ≠ []) (hdot : segment ≠ ['.'])
    (rest : List (List Char)) :
    componentsOf (segment :: rest) = (segment :: rest).filterMap Path.ofSegment? := by
  unfold componentsOf
  split
  · rename_i h
    exact absurd (List.cons.inj h).1 hempty
  · rename_i h
    exact absurd (List.cons.inj h).1 hdot
  · rfl

theorem componentsOf_append {segments : List (List Char)} (h : segments ≠ []) (hempty : segments ≠ [[]])
    (more : List (List Char)) :
    componentsOf (segments ++ more) = componentsOf segments ++ more.filterMap Path.ofSegment? := by
  obtain ⟨segment, rest, rfl⟩ := List.exists_cons_of_ne_nil h
  rw [List.cons_append]
  by_cases hsegment : segment = []
  · subst hsegment
    obtain ⟨next, rest, rfl⟩ := List.exists_cons_of_ne_nil (by simpa using hempty : rest ≠ [])
    show Component.root :: (next :: rest ++ more).filterMap Path.ofSegment? = _
    rw [List.filterMap_append]
    rfl
  · by_cases hdot : segment = ['.']
    · subst hdot
      show Component.current :: (rest ++ more).filterMap Path.ofSegment? = _
      rw [List.filterMap_append]
      rfl
    · rw [componentsOf_of_first hsegment hdot, componentsOf_of_first hsegment hdot, ← List.cons_append,
        List.filterMap_append]

theorem isAbsolute_name {s : String} (hs : IsName s) : (Path.mk s).isAbsolute = false := by
  rw [isAbsolute, beq_eq_false_iff_ne]
  intro he
  exact hs.2.2.2 (List.mem_of_mem_head? he)

/-- A relative path is joined after a slash, which the path may end in already. -/
theorem exists_toList_join (hq : q.isAbsolute = false) (hp : p.text ≠ "") :
    ∃ front, (p.join q).text.toList = front ++ '/' :: q.text.toList ∧
      (p.text.toList = front ∨ p.text.toList = front ++ ['/']) := by
  rw [join, hq, if_neg Bool.false_ne_true]
  by_cases hlast : p.text.toList.getLast? = some '/'
  · obtain ⟨front, hfront⟩ := List.getLast?_eq_some_iff.1 hlast
    refine ⟨front, ?_, Or.inr hfront⟩
    rw [if_pos (by simp [hlast]), String.toList_append, hfront, List.append_assoc]
    rfl
  · refine ⟨p.text.toList, ?_, Or.inl rfl⟩
    rw [if_neg (by simp [hlast, String.isEmpty_iff, hp]), String.toList_append, String.toList_append,
      List.append_assoc]
    rfl

/-- What a relative path that is joined says comes after what the path said. -/
theorem components_join_relative (hq : q.isAbsolute = false) (hp : p.text ≠ "") :
    (p.join q).components = p.components ++ (Text.pieces '/' q.text.toList).filterMap Path.ofSegment? := by
  obtain ⟨front, hjoin, hfront⟩ := exists_toList_join hq hp
  rw [components, hjoin, Text.pieces_append_cons]
  by_cases hne : front = []
  · subst hne
    have htop : p.text.toList = ['/'] := hfront.resolve_left fun he => hp (String.toList_eq_nil_iff.1 he)
    have hp : p.components = [.root] := by
      rw [components, htop]
      rfl
    rw [hp, ← Text.pieces_append_cons]
    exact components_of_cons_slash
  · have hpieces : Text.pieces '/' front ≠ [[]] := by
      intro he
      have hjoined := Text.joined_pieces '/' front
      rw [he] at hjoined
      exact hne hjoined.symm
    have hp : p.components = componentsOf (Text.pieces '/' front) := by
      rcases hfront with hfront | hfront
      · rw [components, hfront]
      · rw [components, hfront, Text.pieces_snoc_sep,
          componentsOf_append (Text.pieces_ne_nil _ _) hpieces]
        exact List.append_nil _
    rw [componentsOf_append (Text.pieces_ne_nil _ _) hpieces, hp]

theorem components_name {s : String} (hs : IsName s) : (Path.mk s).components = [.name s] := by
  obtain ⟨hempty, hdot, -, -⟩ := ofSegment?_eq_name_iff.1 hs.ofSegment?
  rw [components, Text.pieces_of_not_mem hs.2.2.2, componentsOf_of_first hempty hdot,
    List.filterMap_cons_some hs.ofSegment?]
  rfl

/-- A name joined to a path is one component more. -/
theorem components_join (p : Path) {s : String} (hs : IsName s) :
    (p.join ⟨s⟩).components = p.components ++ [.name s] := by
  by_cases hp : p.text = ""
  · obtain rfl : p = ⟨""⟩ := by rw [← hp]
    have hjoin : (Path.mk "").join ⟨s⟩ = ⟨s⟩ := by simp [join, isAbsolute_name hs]
    rw [hjoin, components_name hs]
    rfl
  · rw [components_join_relative (isAbsolute_name hs) hp, Text.pieces_of_not_mem hs.2.2.2,
      List.filterMap_cons_some hs.ofSegment?]
    rfl

/-- A name joined to an absolute path is one name more. -/
theorem toAddress_join (h : p.isAbsolute = true) {s : String} (hs : IsName s) :
    (p.join ⟨s⟩).toAddress = p.toAddress ++ [s] := by
  rw [toAddress_of_absolute (isAbsolute_join h _), components_join p hs, List.foldl_append,
    ← toAddress_of_absolute h]
  rfl

theorem text_ne_empty (h : p.isAbsolute = true) : p.text ≠ "" := by
  intro he
  rw [isAbsolute, he] at h
  cases h

/-- From the directory at an address, names with slashes between them lead down. -/
theorem normalize_join_names {a rest : Address} (h : ∀ s ∈ a ++ rest, IsName s) :
    ((ofAddress a).join ⟨String.ofList (Text.joined '/' (rest.map String.toList))⟩).normalize =
      ofAddress (a ++ rest) := by
  have hrest : ∀ s ∈ rest, IsName s := fun s hs => h s (List.mem_append_right _ hs)
  have hnames : (Text.pieces '/' (Text.joined '/' (rest.map String.toList))).filterMap Path.ofSegment? =
      rest.map .name := by
    by_cases hne : rest = []
    · subst hne
      rfl
    · rw [pieces_joined_names hne hrest, filterMap_ofSegment?_names hrest]
  have hjoin := isAbsolute_join (isAbsolute_ofAddress a)
    ⟨String.ofList (Text.joined '/' (rest.map String.toList))⟩
  rw [normalize_of_absolute hjoin, toAddress_of_absolute hjoin,
    components_join_relative (isAbsolute_joined_names hrest) (text_ne_empty (isAbsolute_ofAddress a)),
    components_ofAddress fun s hs => h s (List.mem_append_left _ hs), String.toList_ofList, hnames,
    List.cons_append, ← List.map_append, List.foldl_cons]
  exact congrArg ofAddress (foldl_enter_names [] (a ++ rest))

/-! ### Normal forms -/

/-- The components that go up a number of times and then down by names. -/
def upAndDown (up : Nat) (names : Address) : List Component :=
  List.replicate up .parent ++ names.map .name

@[simp] theorem upAndDown_zero (names : Address) : upAndDown 0 names = names.map .name := rfl

theorem pushNormal_upAndDown {component : Component} (h : component ≠ .root) (up : Nat) (names : Address) :
    ∃ up' names', pushNormal (upAndDown up names).reverse component = (upAndDown up' names').reverse ∧
      ∀ s ∈ names', s ∈ names ∨ component = .name s := by
  cases component with
  | root => exact absurd rfl h
  | current => exact ⟨up, names, rfl, fun s => Or.inl⟩
  | name s =>
    refine ⟨up, names ++ [s], by simp [pushNormal, upAndDown], fun s' hs' => ?_⟩
    simpa [eq_comm] using hs'
  | parent =>
    rcases List.eq_nil_or_concat names with rfl | ⟨front, s, rfl⟩
    · refine ⟨up + 1, [], ?_, by simp⟩
      rw [upAndDown, upAndDown, List.map_nil, List.append_nil, List.append_nil, List.reverse_replicate,
        List.reverse_replicate]
      cases up with
      | zero => rfl
      | succ up => rfl
    · exact ⟨up, front, by simp [pushNormal, upAndDown], fun s' hs' => Or.inl (by simp [hs'])⟩

/-- A relative path has a normal form that goes up and then down. -/
theorem normalComponents_of_relative {components : List Component} (h : ∀ c ∈ components, c ≠ .root) :
    ∃ up names, normalComponents components = upAndDown up names ∧ ∀ s ∈ names, .name s ∈ components := by
  induction components using List.reverseRecOn with
  | nil => exact ⟨0, [], rfl, by simp⟩
  | append_singleton front component ih =>
    obtain ⟨up, names, hfront, hnames⟩ := ih fun c hc => h c (List.mem_append_left _ hc)
    obtain ⟨up', names', hpush, hnames'⟩ :=
      pushNormal_upAndDown (h component (by simp)) up names
    refine ⟨up', names', ?_, fun s hs => ?_⟩
    · rw [normalComponents, List.foldl_append, List.foldl_cons, List.foldl_nil]
      rw [normalComponents, List.reverse_eq_iff] at hfront
      rw [hfront, hpush, List.reverse_reverse]
    · rcases hnames' s hs with hs | rfl
      · exact List.mem_append_left _ (hnames s hs)
      · simp

theorem components_ofComponents_upAndDown (up : Nat) {names : Address} (h : ∀ s ∈ names, IsName s) :
    (ofComponents (upAndDown up names)).components = upAndDown up names := by
  have htext : (ofComponents (upAndDown up names)).text.toList =
      Text.joined '/' (List.replicate up ['.', '.'] ++ names.map String.toList) := by
    have hnames : (upAndDown up names).map componentText =
        List.replicate up ['.', '.'] ++ names.map String.toList := by
      rw [upAndDown, List.map_append, List.map_replicate, List.map_map]
      rfl
    rw [← hnames]
    unfold ofComponents
    split
    · rename_i rest hrest
      have hroot : Component.root ∈ upAndDown up names := by rw [hrest]; exact List.mem_cons_self
      simp [upAndDown] at hroot
    · exact String.toList_ofList
  have hpieces : (List.replicate up ['.', '.'] ++ names.map String.toList).filterMap Path.ofSegment? =
      upAndDown up names := by
    have hup : (Path.ofSegment? ['.', '.']) = some .parent := rfl
    rw [List.filterMap_append, filterMap_ofSegment?_names h, List.filterMap_replicate_of_some hup]
    rfl
  rw [components, htext]
  by_cases hne : List.replicate up ['.', '.'] ++ names.map String.toList = []
  · rw [← hpieces, hne]
    rfl
  · have hsegment : ∀ segment ∈ List.replicate up ['.', '.'] ++ names.map String.toList,
        isIdle segment = false ∧ '/' ∉ segment := by
      intro segment hmem
      rcases List.mem_append.1 hmem with hmem | hmem
      · rw [(List.mem_replicate.1 hmem).2]
        decide
      · obtain ⟨s, hs, rfl⟩ := List.mem_map.1 hmem
        exact ⟨isIdle_name (h s hs), (h s hs).2.2.2⟩
    rw [Text.pieces_joined hne fun segment hmem => (hsegment segment hmem).2, ← hpieces]
    obtain ⟨segment, rest, hfirst⟩ := List.exists_cons_of_ne_nil hne
    have hidle := (hsegment segment (by simp [hfirst])).1
    rw [hfirst]
    refine componentsOf_of_first ?_ ?_ rest
    · rintro rfl
      cases hidle
    · rintro rfl
      cases hidle

/-- The normal form of a relative path goes up and then down. -/
theorem exists_components_normalize (h : p.isAbsolute = false) :
    ∃ up names, (∀ s ∈ names, IsName s) ∧ p.normalize.components = upAndDown up names := by
  have hroot : ∀ component ∈ p.components, component ≠ .root := by
    rintro component hmem rfl
    rw [isAbsolute_iff.2 hmem] at h
    cases h
  obtain ⟨up, names, hnormal, hnames⟩ := normalComponents_of_relative hroot
  have hname : ∀ s ∈ names, IsName s := fun s hs => isName_of_mem_components (hnames s hs)
  exact ⟨up, names, hname, by rw [normalize, hnormal, components_ofComponents_upAndDown up hname]⟩

/-! ### Paths that never go up -/

/-- Whether a path is absolute and has no `..` in it. -/
def IsStraight (p : Path) : Prop :=
  p.isAbsolute = true ∧ .parent ∉ p.components

instance (p : Path) : Decidable p.IsStraight :=
  inferInstanceAs (Decidable (_ ∧ _))

theorem toAddress_of_components {a : Address} (h : p.components = .root :: a.map .name) :
    p.toAddress = a := by
  have habsolute : p.isAbsolute = true := isAbsolute_iff.2 (by rw [h]; exact List.mem_cons_self)
  rw [toAddress_of_absolute habsolute, h, List.foldl_cons]
  exact foldl_enter_names [] a

theorem isStraight_of_components {a : Address} (h : p.components = .root :: a.map .name) :
    p.IsStraight := by
  refine ⟨isAbsolute_iff.2 (by rw [h]; exact List.mem_cons_self), ?_⟩
  rw [h]
  simp

theorem isStraight_normalize (h : p.isAbsolute = true) : p.normalize.IsStraight := by
  rw [normalize_of_absolute h]
  exact isStraight_of_components (components_ofAddress fun s => isName_of_mem_toAddress)

/-- Past the slash that it starts with, the segments of an absolute path stand for what they say. -/
theorem components_of_isAbsolute (h : p.isAbsolute = true) :
    p.components = .root :: (Text.pieces '/' p.text.toList).filterMap Path.ofSegment? := by
  rw [isAbsolute, beq_iff_eq] at h
  obtain ⟨text, htext⟩ := List.head?_eq_some_iff.1 h
  rw [components, htext, components_of_cons_slash, Text.pieces_cons, if_pos rfl]
  rfl

/-- A segment stands for a name, or for nothing, or it goes up. -/
theorem exists_name_of_ofSegment? {segment : List Char} {component : Component}
    (h : Path.ofSegment? segment = some component) (hparent : component ≠ .parent) :
    component ∈ Set.range Component.name := by
  unfold Path.ofSegment? at h
  split at h
  · cases h
  · cases h
  · exact absurd (Option.some.inj h).symm hparent
  · exact ⟨_, Option.some.inj h⟩

/-- A straight path names its address. -/
theorem IsStraight.components_eq (h : p.IsStraight) : p.components = .root :: p.toAddress.map .name := by
  obtain ⟨habsolute, hparent⟩ := h
  have hp := components_of_isAbsolute habsolute
  have hnames : (Text.pieces '/' p.text.toList).filterMap Path.ofSegment? ∈
      Set.range (List.map Component.name) := by
    rw [Set.range_list_map]
    intro component hmem
    obtain ⟨segment, -, hsegment⟩ := List.mem_filterMap.1 hmem
    refine exists_name_of_ofSegment? hsegment ?_
    rintro rfl
    exact hparent (by rw [hp]; exact List.mem_cons_of_mem _ hmem)
  obtain ⟨a, ha⟩ := hnames
  rw [← ha] at hp
  rw [hp, toAddress_of_components hp]

theorem IsStraight.join (h : p.IsStraight) {s : String} (hs : IsName s) :
    (p.join ⟨s⟩).IsStraight ∧ (p.join ⟨s⟩).toAddress = p.toAddress ++ [s] := by
  have hjoin : (p.join ⟨s⟩).components = .root :: (p.toAddress ++ [s]).map .name := by
    rw [components_join p hs, h.components_eq, List.map_append]
    rfl
  exact ⟨isStraight_of_components hjoin, toAddress_of_components hjoin⟩

theorem IsStraight.map_components_ancestors (h : p.IsStraight) :
    p.ancestors.map components = p.toAddress.inits.reverse.map fun a => .root :: a.map .name := by
  rw [Path.map_components_ancestors, if_pos h.1, h.components_eq, List.inits_cons, List.tail_cons,
    List.map_inits, List.map_map, List.map_reverse]
  rfl

theorem IsStraight.of_mem_ancestors (h : p.IsStraight) (hq : q ∈ p.ancestors) : q.IsStraight := by
  have hmem : q.components ∈ p.ancestors.map components := List.mem_map_of_mem hq
  rw [h.map_components_ancestors] at hmem
  obtain ⟨a, -, ha⟩ := List.mem_map.1 hmem
  exact isStraight_of_components ha.symm

/-- The paths above a straight path have the beginnings of its address, longest first. -/
theorem IsStraight.map_toAddress_ancestors (h : p.IsStraight) :
    p.ancestors.map toAddress = p.toAddress.inits.reverse := by
  have hspell : Function.Injective fun a : Address => Component.root :: a.map Component.name := by
    intro a b hab
    exact List.map_injective_iff.2 (fun _ _ => Component.name.inj) (List.cons.inj hab).2
  refine List.map_injective_iff.2 hspell ?_
  rw [← h.map_components_ancestors, List.map_map]
  exact List.map_congr_left fun q hq => (h.of_mem_ancestors hq).components_eq.symm

theorem IsStraight.toAddress_isPrefix_of_mem_ancestors (h : p.IsStraight) (hq : q ∈ p.ancestors) :
    q.toAddress <+: p.toAddress := by
  have hmem : q.toAddress ∈ p.ancestors.map toAddress := List.mem_map_of_mem hq
  rw [h.map_toAddress_ancestors, List.mem_reverse, List.mem_inits] at hmem
  exact hmem

/-- Straight paths are the same when their addresses are. -/
theorem IsStraight.same_iff (hp : p.IsStraight) (hq : q.IsStraight) :
    p.same q = true ↔ p.toAddress = q.toAddress := by
  rw [same, beq_iff_eq, hp.components_eq, hq.components_eq, List.cons_inj_right]
  exact (List.map_injective_iff.2 fun _ _ => Component.name.inj).eq_iff

end LineEndings.Path

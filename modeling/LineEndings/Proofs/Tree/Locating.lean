/-
Where paths lead in a tree.

* `toAddress_of_locate` — a path that leads anywhere leads to its address;
* `locate_ofAddress` — what stands in a tree is found by the path that spells out its address;
* `find?_join`, `find?_ofAddress` — a name joined to a path without `..` leads to what stands at the address, unless
  the text is too long, and so does a path that spells out an address;
* `read_of_locate`, `write_of_locate` — a file that a path leads to can be read there, and replaced;
* `SameShape.locate_eq` — where a path leads depends on which files and directories there are, and not on
  what the files hold, so a file that has been replaced is read where it was (`read_of_replaced`);
* `AlikeBut.find?_eq` — a file that is changed, made or removed bears on the paths that lead to it, and on no
  others.
-/
import LineEndings.Tree.Basic
import LineEndings.Proofs.Path.Above

namespace LineEndings

/-- An item without what it holds. -/
def Item.outline : Item → Item
  | .file _ => .file .empty
  | .directory => .directory

/-- The text of a file. -/
def Item.text? : Item → Option String
  | .file content => String.fromUTF8? content
  | .directory => none

theorem fromUTF8?_toUTF8 (text : String) : String.fromUTF8? text.toUTF8 = some text :=
  dif_pos text.isValidUTF8

theorem toUTF8_of_fromUTF8? {bytes : ByteArray} {text : String}
    (h : String.fromUTF8? bytes = some text) : text.toUTF8 = bytes := by
  rw [String.fromUTF8?] at h
  split at h
  · rw [← Option.some.inj h]
    rfl
  · cases h

namespace Tree

variable {tree other : Tree} {address : Address} {path : Path}

/-! ### What stands where -/

theorem item?_of_ne_nil (h : address ≠ []) : tree.item? address = tree.items[address]? :=
  if_neg h

theorem hasDirectory_iff : tree.items.HasDirectory address ↔ tree.item? address = some .directory := by
  by_cases h : address = []
  · simp [Items.HasDirectory, item?, h]
  · simp [Items.HasDirectory, item?, h]

/-- What stands anywhere but at the top stands in a directory. -/
theorem item?_dropLast {item : Item} (h : tree.item? address = some item) :
    tree.item? address.dropLast = some .directory := by
  by_cases hne : address = []
  · subst hne
    rfl
  · rw [item?_of_ne_nil hne] at h
    exact hasDirectory_iff.1 (tree.inDirectories address item h).2

theorem spellable_of_item? {item : Item} (h : tree.item? address = some item) :
    address.Spellable := by
  by_cases hne : address = []
  · subst hne
    decide
  · rw [item?_of_ne_nil hne] at h
    exact tree.spellable address item h

theorem isName_of_item? {item : Item} (h : tree.item? address = some item) :
    ∀ s ∈ address, Path.IsName s :=
  fun s hs => ((spellable_of_item? h).1 s hs).1

/-! ### Following a path -/

/-- No step starts at a file. -/
theorem isDirectory_of_step {here next : Address} {segment : List Char} (h : tree.step here segment = .ok next) :
    tree.item? here = some .directory := by
  rw [step] at h
  split at h
  · cases h
  · cases h
  · assumption

theorem locate_eq_ok_iff : tree.locate path = .ok address ↔
    '\x00' ∉ path.text.toList ∧ path.text.utf8ByteSize ≤ maxPathSize ∧ path.isAbsolute = true ∧
      (Text.pieces '/' path.text.toList).foldlM tree.step [] = .ok address := by
  rw [locate]
  split
  · rename_i hzero
    exact iff_of_false (by simp) fun h => h.1 hzero
  · rename_i hzero
    split
    · rename_i hsize
      exact iff_of_false (by simp) fun h => by omega
    · rename_i hsize
      split
      · rename_i habsolute
        exact ⟨fun h => ⟨hzero, by omega, habsolute, h⟩, fun h => h.2.2.2⟩
      · rename_i habsolute
        exact iff_of_false (by simp) fun h => habsolute h.2.2.1

theorem eq_of_step {here next : Address} {segment : List Char}
    (h : tree.step here segment = .ok next) :
    next = (Path.ofSegment? segment).elim here (Path.enter here) := by
  rw [step] at h
  split at h
  · cases h
  · cases h
  · split at h
    · rename_i hs
      rw [hs]
      exact (Except.ok.inj h).symm
    · rename_i hs
      split at h
      · cases h
      · rw [hs]
        exact (Except.ok.inj h).symm
    · rename_i hparent hname
      obtain rfl := Except.ok.inj h
      unfold Path.ofSegment? at hparent hname ⊢
      split <;> simp_all

theorem eq_of_foldlM_step {segments : List (List Char)} {here next : Address}
    (h : segments.foldlM tree.step here = .ok next) :
    next = (segments.filterMap Path.ofSegment?).foldl Path.enter here := by
  induction segments generalizing here with
  | nil => exact (Except.ok.inj h).symm
  | cons segment segments ih =>
    rw [List.foldlM_cons] at h
    cases hstep : tree.step here segment with
    | error fault =>
      rw [hstep] at h
      cases h
    | ok there =>
      rw [hstep] at h
      have hthere := eq_of_step hstep
      rw [ih h, List.filterMap_cons, hthere]
      cases Path.ofSegment? segment with
      | none => rfl
      | some component => rfl

/-- The slash at the start of an absolute path leads to the top. -/
theorem foldlM_step_of_absolute (tree : Tree) {text : List Char} :
    (Text.pieces '/' ('/' :: text)).foldlM tree.step [] =
      (Text.pieces '/' text).foldlM tree.step [] := by
  rw [Text.pieces_cons, if_pos rfl]
  rfl

/-- A path that leads anywhere is absolute, and leads to its address. -/
theorem toAddress_of_locate (h : tree.locate path = .ok address) :
    path.isAbsolute = true ∧ path.toAddress = address := by
  obtain ⟨-, -, habsolute, hsteps⟩ := locate_eq_ok_iff.1 h
  -- The slash at the start and the component for it both lead to the top.
  refine ⟨habsolute, ?_⟩
  rw [Path.toAddress_of_absolute habsolute]
  rw [Path.isAbsolute, beq_iff_eq] at habsolute
  obtain ⟨text, htext⟩ := List.head?_eq_some_iff.1 habsolute
  rw [htext, foldlM_step_of_absolute] at hsteps
  rw [Path.components, htext, Path.components_of_cons_slash, eq_of_foldlM_step hsteps]
  rfl

theorem step_name {segment : List Char} {s : String} (hdir : tree.item? address = some .directory)
    (hs : Path.ofSegment? segment = some (.name s)) (hsize : s.utf8ByteSize ≤ maxNameSize) :
    tree.step address segment = .ok (address ++ [s]) := by
  rw [step, hdir]
  simp only [hs]
  rw [if_neg (by omega)]

theorem step_idle {segment : List Char} (hdir : tree.item? address = some .directory)
    (hs : Path.ofSegment? segment = none) : tree.step address segment = .ok address := by
  rw [step, hdir]
  simp only [hs]

/-- The last step to a name starts from the directory that the steps before it lead to. -/
theorem foldlM_step_name {segments : List (List Char)} {s : String}
    (hsegments : segments.foldlM tree.step [] = .ok address) (hdir : tree.item? address = some .directory)
    (hs : Path.IsName s) (hsize : s.utf8ByteSize ≤ maxNameSize) :
    (segments ++ [s.toList]).foldlM tree.step [] = .ok (address ++ [s]) := by
  rw [List.foldlM_append, hsegments]
  show tree.step address s.toList >>= _ = _
  rw [step_name hdir hs.ofSegment? hsize]
  rfl

/-- Segments that never go up lead down to the directory that they name. -/
theorem foldlM_step_down {segments : List (List Char)}
    (hsegments : segments.filterMap Path.ofSegment? = address.map .name)
    (hdir : tree.item? address = some .directory) : segments.foldlM tree.step [] = .ok address := by
  induction segments using List.reverseRecOn generalizing address with
  | nil =>
    obtain rfl := List.map_eq_nil_iff.1 hsegments.symm
    rfl
  | append_singleton front segment ih =>
    rw [List.filterMap_append] at hsegments
    rw [List.foldlM_append]
    cases hsegment : Path.ofSegment? segment with
    | none =>
      rw [List.filterMap_cons_none hsegment, List.filterMap_nil, List.append_nil] at hsegments
      rw [ih hsegments hdir]
      show tree.step address segment >>= _ = _
      rw [step_idle hdir hsegment]
      rfl
    | some component =>
      rw [List.filterMap_cons_some hsegment, List.filterMap_nil, eq_comm, List.map_eq_append_iff] at hsegments
      obtain ⟨above, last, rfl, hfront, hlast⟩ := hsegments
      obtain ⟨s, rfl, rfl⟩ := List.map_eq_singleton_iff.1 hlast
      have habove := item?_dropLast hdir
      rw [List.dropLast_concat] at habove
      rw [ih hfront.symm habove]
      show tree.step above segment >>= _ = _
      rw [step_name habove hsegment ((spellable_of_item? hdir).1 s (by simp)).2.2]
      rfl

/-- A name after such segments leads to what stands there. -/
theorem foldlM_step_snoc {segments : List (List Char)} {s : String} {item : Item}
    (hsegments : segments.filterMap Path.ofSegment? = address.map .name)
    (h : tree.item? (address ++ [s]) = some item) :
    (segments ++ [s.toList]).foldlM tree.step [] = .ok (address ++ [s]) := by
  have hdir := item?_dropLast h
  obtain ⟨hname, -, hsize⟩ := (spellable_of_item? h).1 s (by simp)
  rw [List.dropLast_concat] at hdir
  exact foldlM_step_name (foldlM_step_down hsegments hdir) hdir hname hsize

/-- There is no zero character in a path that never goes up if something stands at its address. -/
theorem zero_not_mem_of_isStraight {item : Item} (hpath : path.IsStraight)
    (h : tree.item? path.toAddress = some item) : '\x00' ∉ path.text.toList := by
  have hcomponents := hpath.components_eq
  rw [Path.components_of_isAbsolute hpath.1, List.cons_inj_right] at hcomponents
  rw [← Text.joined_pieces '/' path.text.toList]
  intro hmem
  rcases Text.mem_joined hmem with hmem | ⟨piece, hpiece, hmem⟩
  · exact absurd hmem (by decide)
  · cases hsegment : Path.ofSegment? piece with
    | none =>
      have hidle := Path.ofSegment?_eq_none_iff.1 hsegment
      rw [Path.isIdle, Bool.or_eq_true, beq_iff_eq, beq_iff_eq] at hidle
      rcases hidle with rfl | rfl
      · exact absurd hmem (by decide)
      · exact absurd hmem (by decide)
    | some component =>
      have hcomponent : component ∈ path.toAddress.map .name := by
        rw [← hcomponents]
        exact List.mem_filterMap.2 ⟨piece, hpiece, hsegment⟩
      obtain ⟨s, hs, rfl⟩ := List.mem_map.1 hcomponent
      have hzero := ((spellable_of_item? h).1 s hs).2.1
      rw [(Path.ofSegment?_eq_name_iff.1 hsegment).2.2.2, String.toList_ofList] at hzero
      exact hzero hmem

/-- What stands in a tree is found where its address says. -/
theorem locate_ofAddress {item : Item} (h : tree.item? address = some item) :
    tree.locate (.ofAddress address) = .ok address := by
  obtain ⟨hnames, hsize⟩ := spellable_of_item? h
  have hname : ∀ s ∈ address, Path.IsName s := fun s hs => (hnames s hs).1
  have hpath := Path.components_ofAddress hname
  have hzero : '\x00' ∉ (Path.ofAddress address).text.toList :=
    zero_not_mem_of_isStraight (Path.isStraight_of_components hpath)
      (by rw [Path.toAddress_of_components hpath, h])
  refine locate_eq_ok_iff.2 ⟨hzero, hsize, Path.isAbsolute_ofAddress _, ?_⟩
  rw [Path.toList_ofAddress, foldlM_step_of_absolute]
  rcases List.eq_nil_or_concat' address with rfl | ⟨above, s, rfl⟩
  · rfl
  · rw [Path.pieces_joined_names (by simp) hname, List.map_append]
    exact foldlM_step_snoc (Path.filterMap_ofSegment?_names fun s' hs' => hname s' (by simp [hs'])) h

/-- What stands at the address of a name joined to a path that never goes up is found by it. -/
theorem locate_join {s : String} {item : Item} (hpath : path.IsStraight) (hs : Path.IsName s)
    (hsize : (path.join ⟨s⟩).text.utf8ByteSize ≤ maxPathSize)
    (h : tree.item? (path.toAddress ++ [s]) = some item) :
    tree.locate (path.join ⟨s⟩) = .ok (path.toAddress ++ [s]) := by
  obtain ⟨hjoin, haddress⟩ := hpath.join hs
  have hcomponents := hjoin.components_eq
  obtain ⟨front, htext, -⟩ := Path.exists_toList_join (Path.isAbsolute_name hs) (Path.text_ne_empty hpath.1)
  have hpieces : Text.pieces '/' (path.join ⟨s⟩).text.toList = Text.pieces '/' front ++ [s.toList] := by
    rw [htext, Text.pieces_append_cons, Text.pieces_of_not_mem hs.2.2.2]
  rw [Path.components_of_isAbsolute hjoin.1, List.cons_inj_right, hpieces, haddress, List.map_append,
    List.filterMap_append, List.filterMap_cons_some hs.ofSegment?] at hcomponents
  refine locate_eq_ok_iff.2 ⟨zero_not_mem_of_isStraight hjoin (by rw [haddress, h]), hsize, hjoin.1, ?_⟩
  rw [hpieces, foldlM_step_snoc (List.append_inj_left' hcomponents rfl) h]

theorem find?_of_locate (h : tree.locate path = .ok address) : tree.find? path = tree.item? address := by
  rw [find?, h]

theorem find?_of_error {fault : Fault} (h : tree.locate path = .error fault) : tree.find? path = none := by
  rw [find?, h]

/-- Where nothing stands at its address, a path leads to nothing. -/
theorem find?_of_item?_eq_none (h : tree.item? path.toAddress = none) : tree.find? path = none := by
  cases hlocate : tree.locate path with
  | error fault => exact find?_of_error hlocate
  | ok there => rw [find?_of_locate hlocate, ← (toAddress_of_locate hlocate).2, h]

/-- A name joined to a path that never goes up leads to what stands at the address, if the text is not too
long. -/
theorem find?_join (tree : Tree) {s : String} (hpath : path.IsStraight) (hs : Path.IsName s) :
    tree.find? (path.join ⟨s⟩) =
      if maxPathSize < (path.join ⟨s⟩).text.utf8ByteSize then none
      else tree.item? (path.toAddress ++ [s]) := by
  split
  · rename_i hsize
    have hlocate : ∃ fault, tree.locate (path.join ⟨s⟩) = .error fault := by
      rw [locate]
      split
      · exact ⟨_, rfl⟩
      · exact ⟨_, rfl⟩
    obtain ⟨fault, hlocate⟩ := hlocate
    rw [find?_of_error hlocate]
  · rename_i hsize
    cases hitem : tree.item? (path.toAddress ++ [s]) with
    | some item => rw [find?_of_locate (locate_join hpath hs (by omega) hitem), hitem]
    | none => exact find?_of_item?_eq_none (by rw [(hpath.join hs).2, hitem])

/-- A path that spells out an address leads to what stands there. -/
theorem find?_ofAddress (tree : Tree) (h : ∀ s ∈ address, Path.IsName s) :
    tree.find? (.ofAddress address) = tree.item? address := by
  cases hitem : tree.item? address with
  | some item => rw [find?_of_locate (locate_ofAddress hitem), hitem]
  | none => exact find?_of_item?_eq_none (by rw [Path.toAddress_ofAddress h, hitem])

/-! ### Reading and writing -/

theorem read_of_locate {content : ByteArray} (hlocate : tree.locate path = .ok address)
    (h : tree.item? address = some (.file content)) : tree.read path = .ok content := by
  simp only [read, hlocate, h]

/-- What can be read stands where the path leads. -/
theorem exists_locate_of_read {content : ByteArray} (h : tree.read path = .ok content) :
    ∃ address, tree.locate path = .ok address ∧ tree.item? address = some (.file content) := by
  rw [read] at h
  split at h
  · cases h
  · rename_i address hlocate
    refine ⟨address, hlocate, ?_⟩
    split at h
    · cases h
    · cases h
    · rename_i hitem
      rw [hitem, Except.ok.inj h]

theorem admits_file {content : ByteArray} (h : tree.item? address = some (.file content))
    (new : ByteArray) : Admits tree.items address (.file new) := by
  have hne : address ≠ [] := by
    rintro rfl
    cases h
  refine ⟨hne, spellable_of_item? h, hasDirectory_iff.2 (item?_dropLast h), fun hdir => ?_⟩
  rw [item?_of_ne_nil hne, hdir] at h
  cases h

/-- A file that stands in a tree can be written, and that changes it and nothing else. -/
theorem write_of_locate {content : ByteArray} (hlocate : tree.locate path = .ok address)
    (h : tree.item? address = some (.file content)) (new : ByteArray) :
    ∃ written, tree.write path new = .ok written ∧
      ∀ a, written.item? a = if a = address then some (.file new) else tree.item? a := by
  refine ⟨tree.set address (.file new), ?_, fun a => ?_⟩
  · simp only [write, hlocate, h]
  · by_cases ha : a = address
    · subst ha
      rw [if_pos rfl, item?_set_self (admits_file h new)]
    · rw [if_neg ha, item?_set_of_ne tree _ ha]

theorem read_of_find? {content : ByteArray} (h : tree.find? path = some (.file content)) :
    tree.read path = .ok content := by
  cases hlocate : tree.locate path with
  | error fault =>
    rw [find?_of_error hlocate] at h
    cases h
  | ok address =>
    rw [find?_of_locate hlocate] at h
    exact read_of_locate hlocate h

theorem isFile_iff : tree.isFile path = true ↔ ∃ content, tree.find? path = some (.file content) := by
  rw [isFile]
  split
  · rename_i content hfind
    exact ⟨fun _ => ⟨content, hfind⟩, fun _ => rfl⟩
  · rename_i hfind
    refine ⟨fun h => absurd h Bool.false_ne_true, ?_⟩
    rintro ⟨content, h⟩
    exact absurd h (hfind content)

theorem readText_of_find? {text : String} (h : tree.find? path = some (.file text.toUTF8)) :
    tree.readText path = .ok text := by
  rw [readText, read_of_find? h]
  simp only [fromUTF8?_toUTF8]

/-- Whether there is a file where a path leads, and its text, depend on nothing else. -/
theorem isFile_congr (h : other.find? path = tree.find? path) : other.isFile path = tree.isFile path := by
  rw [isFile, isFile, h]

theorem readText_congr (h : other.find? path = tree.find? path) (hfile : tree.isFile path = true) :
    other.readText path = tree.readText path := by
  obtain ⟨content, hcontent⟩ := isFile_iff.1 hfile
  rw [readText, readText, read_of_find? hcontent, read_of_find? (h.trans hcontent)]

theorem text?_files (tree : Tree) (path : Path) :
    tree.files.text? path = (tree.find? path).bind Item.text? := by
  cases hlocate : tree.locate path with
  | error fault => simp [Files.text?, files, isFile, find?, hlocate]
  | ok address =>
    cases hitem : tree.item? address with
    | none => simp [Files.text?, files, isFile, find?, hlocate, hitem]
    | some item =>
      cases item with
      | directory => simp [Files.text?, files, isFile, find?, hlocate, hitem, Item.text?]
      | file content =>
        cases htext : String.fromUTF8? content <;>
          simp [Files.text?, files, isFile, find?, readText, read, hlocate, hitem, Item.text?, htext,
            Except.toOption]

/-! ### Trees of the same shape -/

/-- Whether the same files and directories stand in two trees, whatever the files hold. -/
def SameShape (tree other : Tree) : Prop :=
  ∀ address, (tree.item? address).map Item.outline = (other.item? address).map Item.outline

/-- The same stands at an address of both trees, or files that may hold different things. -/
theorem SameShape.cases (h : tree.SameShape other) (address : Address) :
    tree.item? address = other.item? address ∨
      ∃ content content', tree.item? address = some (.file content) ∧
        other.item? address = some (.file content') := by
  have haddress := h address
  cases htree : tree.item? address with
  | none =>
    rw [htree, Option.map_none, eq_comm, Option.map_eq_none_iff] at haddress
    exact Or.inl haddress.symm
  | some item =>
    rw [htree, Option.map_some, eq_comm, Option.map_eq_some_iff] at haddress
    obtain ⟨item', hother, houtline⟩ := haddress
    rw [hother]
    cases item with
    | directory =>
      cases item' with
      | directory => exact Or.inl rfl
      | file content' => cases houtline
    | file content =>
      cases item' with
      | directory => cases houtline
      | file content' => exact Or.inr ⟨content, content', rfl, rfl⟩

theorem SameShape.step_eq (h : tree.SameShape other) : tree.step = other.step := by
  funext here segment
  rw [step, step]
  rcases h.cases here with hsame | ⟨content, content', htree, hother⟩
  · rw [hsame]
  · rw [htree, hother]

theorem SameShape.locate_eq (h : tree.SameShape other) : tree.locate = other.locate := by
  funext path
  rw [locate, locate, h.step_eq]

/-- A file that has been replaced is read at the path that led to it before. -/
theorem read_of_replaced {content new : ByteArray} (hlocate : tree.locate path = .ok address)
    (h : tree.item? address = some (.file content))
    (hreplaced : ∀ a, other.item? a = if a = address then some (.file new) else tree.item? a) :
    other.read path = .ok new := by
  have hshape : other.SameShape tree := by
    intro a
    rw [hreplaced a]
    by_cases ha : a = address
    · rw [if_pos ha, ha, h]
      rfl
    · rw [if_neg ha]
  exact read_of_locate (hshape.locate_eq ▸ hlocate) (by rw [hreplaced, if_pos rfl])

/-! ### Trees that differ in one file -/

/-- Whether two trees are alike but for a file at one address, which may be missing in either. -/
structure AlikeBut (address : Address) (tree other : Tree) : Prop where
  item?_eq : ∀ a, a ≠ address → other.item? a = tree.item? a
  not_directory : tree.item? address ≠ some .directory
  not_directory' : other.item? address ≠ some .directory

theorem AlikeBut.symm (h : AlikeBut address tree other) : AlikeBut address other tree :=
  ⟨fun a ha => (h.item?_eq a ha).symm, h.not_directory', h.not_directory⟩

/-- No step starts at a file, so a step that goes somewhere goes there in both trees. -/
theorem AlikeBut.step_eq_ok (h : AlikeBut address tree other) {here next : Address} {segment : List Char}
    (hstep : tree.step here segment = .ok next) : other.step here segment = .ok next := by
  have hne : here ≠ address := by
    rintro rfl
    exact h.not_directory (isDirectory_of_step hstep)
  rw [step, h.item?_eq here hne, ← step, hstep]

theorem AlikeBut.foldlM_step_eq_ok (h : AlikeBut address tree other) {segments : List (List Char)}
    {here there : Address} (hsteps : segments.foldlM tree.step here = .ok there) :
    segments.foldlM other.step here = .ok there := by
  induction segments generalizing here with
  | nil => exact hsteps
  | cons segment segments ih =>
    rw [List.foldlM_cons] at hsteps ⊢
    cases hstep : tree.step here segment with
    | error fault =>
      rw [hstep] at hsteps
      cases hsteps
    | ok next =>
      rw [hstep] at hsteps
      rw [h.step_eq_ok hstep]
      exact ih hsteps

theorem AlikeBut.locate_eq_ok (h : AlikeBut address tree other) {a : Address}
    (hlocate : tree.locate path = .ok a) : other.locate path = .ok a := by
  obtain ⟨hzero, hsize, habsolute, hsteps⟩ := locate_eq_ok_iff.1 hlocate
  exact locate_eq_ok_iff.2 ⟨hzero, hsize, habsolute, h.foldlM_step_eq_ok hsteps⟩

/-- What a path leads to is the same in both trees unless it leads to the address. -/
theorem AlikeBut.find?_eq (h : AlikeBut address tree other) (hpath : tree.locate path ≠ .ok address) :
    other.find? path = tree.find? path := by
  cases hlocate : tree.locate path with
  | ok a =>
    have hne : a ≠ address := by
      rintro rfl
      exact hpath hlocate
    rw [find?_of_locate hlocate, find?_of_locate (h.locate_eq_ok hlocate), h.item?_eq a hne]
  | error fault =>
    rw [find?_of_error hlocate]
    cases hother : other.locate path with
    | error fault' => rw [find?_of_error hother]
    | ok a =>
      rw [h.symm.locate_eq_ok hother] at hlocate
      cases hlocate

/-- The content of a file may be any other. -/
theorem alikeBut_set {content : ByteArray} (h : tree.item? address = some (.file content)) (new : ByteArray) :
    AlikeBut address tree (tree.set address (.file new)) where
  item?_eq a ha := item?_set_of_ne tree _ ha
  not_directory := by simp [h]
  not_directory' := by simp [item?_set_self (admits_file h new)]

end Tree

end LineEndings

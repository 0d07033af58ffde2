/-
Which settings files a search finds.

A settings file stands where the name of settings files, joined to the directory or one above it, leads to a
file; with it stands what comes of reading it (`Standing`). The search is for those that stand nearest first,
up to the first with the root mark (`found`), and for the user's own if it is not among them (`added`).

* `discover_eq` — a search gives what these files say, or the first failure, whatever the file system;
* `discover_congr` — it knows nothing of what lies beyond the first that has the root mark or cannot be read;
* `discover_nearest_first` — in a tree, for paths that never go up: which addresses these files have, that none
  is found twice, and what the search gives.
-/
import LineEndings.Settings.Discovery
import LineEndings.Proofs.Scan
import LineEndings.Proofs.Tree.Locating

namespace LineEndings.Settings

variable {files other : Files} {start : Path}

/-! ### Files that stand somewhere -/

/-- A settings file that stands at a path, with what comes of reading it. -/
structure Standing where
  path : Path
  reading : Except Failure SettingsFile
  deriving DecidableEq

namespace Standing

/-- Whether a file can be read and has the root mark. -/
def isRoot (standing : Standing) : Bool :=
  match standing.reading with
  | .ok file => file.root
  | .error _ => false

/-- Whether a search goes no further than a file. -/
def ends (standing : Standing) : Bool :=
  match standing.reading with
  | .ok file => file.root
  | .error _ => true

/-- The file with its path, if it can be read. -/
def load (standing : Standing) : Except Failure LoadedSettings :=
  standing.reading.map (⟨·, standing.path⟩)

variable {standing : Standing}

theorem load_eq_ok_iff {loaded : LoadedSettings} :
    standing.load = .ok loaded ↔ loaded.path = standing.path ∧ standing.reading = .ok loaded.file := by
  obtain ⟨path, reading⟩ := standing
  obtain ⟨file, path'⟩ := loaded
  cases reading with
  | error failure => simp [load, Except.map]
  | ok file' => simp [load, Except.map, and_comm, eq_comm]

theorem load_eq_error_iff {failure : Failure} :
    standing.load = .error failure ↔ standing.reading = .error failure := by
  obtain ⟨path, reading⟩ := standing
  cases reading with
  | error failure' => simp [load, Except.map]
  | ok file => simp [load, Except.map]

theorem ends_of_isRoot (h : standing.isRoot = true) : standing.ends = true := by
  rw [isRoot] at h
  rw [ends]
  split at h
  · exact h
  · cases h

theorem exists_load_eq_error (hends : standing.ends = true) (hroot : standing.isRoot = false) :
    ∃ failure, standing.load = .error failure := by
  cases hreading : standing.reading with
  | error failure => exact ⟨failure, load_eq_error_iff.2 hreading⟩
  | ok file =>
    rw [ends, hreading] at hends
    rw [isRoot, hreading] at hroot
    exact absurd (hends.symm.trans hroot) (by decide)

theorem exists_load_eq_ok (h : standing.ends = false ∨ standing.isRoot = true) :
    ∃ loaded, standing.load = .ok loaded := by
  cases hreading : standing.reading with
  | ok file => exact ⟨⟨file, standing.path⟩, load_eq_ok_iff.2 ⟨rfl, hreading⟩⟩
  | error failure => simp [ends, isRoot, hreading] at h

theorem isRoot_eq_ends_of_load {loaded : LoadedSettings} (h : standing.load = .ok loaded) :
    standing.isRoot = standing.ends := by
  rw [isRoot, ends, (load_eq_ok_iff.1 h).2]

end Standing

/-- The settings file that stands at a path. -/
def standing? (files : Files) (path : Path) : Option Standing :=
  if files.isFile path then some ⟨path, readFile files path⟩ else none

theorem standing?_of_isFile {path : Path} (h : files.isFile path = true) :
    standing? files path = some ⟨path, readFile files path⟩ :=
  if_pos h

theorem standing?_of_not_isFile {path : Path} (h : files.isFile path = false) : standing? files path = none :=
  if_neg (Bool.not_eq_true _ ▸ h)

theorem path_of_standing? {path : Path} {standing : Standing} (h : standing? files path = some standing) :
    standing.path = path := by
  rw [standing?] at h
  split at h
  · rw [← Option.some.inj h]
  · cases h

/-- The paths at which settings files of a directory may stand, nearest first. -/
def settingsPaths (start : Path) : List Path :=
  start.ancestors.map (·.join ⟨SettingsFile.fileName⟩)

/-- The settings files of a directory and of those above it, nearest first, up to the first with the root
mark. -/
def found (files : Files) (start : Path) : List Standing :=
  throughFirst Standing.isRoot ((settingsPaths start).filterMap (standing? files))

/-- With a home directory, the user's own settings file, unless it has been found. -/
def added (files : Files) (start : Path) (home? : Option Path) : List Standing :=
  ((home?.bind fun home => standing? files (userFile home)).filter fun standing =>
    !(found files start).any (·.path.same standing.path)).toList

/-! ### What a search gives -/

theorem result_cons (first : LoadedSettings) (search : Search) :
    Search.result { search with loaded := first :: search.loaded } = search.result.map (first :: ·) := by
  rw [Search.result, Search.result]
  cases search.failure? with
  | none => rfl
  | some failure => rfl

/-- The search through a list of paths reads what stands there, up to the first with the root mark. -/
theorem result_searchAll (files : Files) (paths : List Path) :
    (searchAll files (paths.filter files.isFile)).result =
      (throughFirst Standing.isRoot (paths.filterMap (standing? files))).mapM Standing.load := by
  induction paths with
  | nil => rfl
  | cons path paths ih =>
    cases hfile : files.isFile path with
    | false =>
      rw [List.filter_cons_of_neg (by simp [hfile]), ih,
        List.filterMap_cons_none (standing?_of_not_isFile hfile)]
    | true =>
      rw [List.filter_cons_of_pos hfile, List.filterMap_cons_some (standing?_of_isFile hfile),
        throughFirst_cons, searchAll]
      cases hread : readFile files path with
      | error failure => rw [mapM_cons_of_error (Standing.load_eq_error_iff.2 rfl)]; rfl
      | ok file =>
        have hload : Standing.load ⟨path, .ok file⟩ = .ok ⟨file, path⟩ :=
          Standing.load_eq_ok_iff.2 ⟨rfl, rfl⟩
        rw [mapM_cons_of_ok hload]
        show (if file.root = true then _ else _ : Search).result =
          ((if file.root = true then _ else _ : List Standing).mapM Standing.load).map _
        split
        · rfl
        · rw [← ih, ← result_cons]

theorem user?_searchAll (files : Files) (paths : List Path) : (searchAll files paths).user? = none := by
  induction paths with
  | nil => rfl
  | cons path paths ih =>
    rw [searchAll]
    split
    · rfl
    · split
      · rfl
      · exact ih

/-- After a search without failure the user's own file is read, unless it has been loaded. -/
theorem result_addUserFile (files : Files) (user : Path) (loaded : List LoadedSettings) :
    (addUserFile files user ⟨loaded, none, none⟩).result =
      (((standing? files user).filter fun standing =>
        !loaded.any (·.path.same standing.path)).toList.mapM Standing.load).map (loaded ++ ·) := by
  rw [addUserFile]
  dsimp only
  cases hfile : files.isFile user with
  | false =>
    rw [Bool.not_false, Bool.or_true, if_pos rfl, standing?_of_not_isFile hfile]
    rfl
  | true =>
    rw [Bool.not_true, Bool.or_false, standing?_of_isFile hfile]
    cases hsame : loaded.any (·.path.same user) with
    | true =>
      rw [if_pos rfl, Option.filter_some_neg (by simp [hsame])]
      rfl
    | false =>
      rw [if_neg (by simp), Option.filter_some_pos (by simp [hsame]), Option.toList_some]
      cases hread : readFile files user with
      | error failure =>
        rw [mapM_cons_of_error (Standing.load_eq_error_iff.2 rfl)]
        rfl
      | ok file =>
        have hload : Standing.load ⟨user, .ok file⟩ = .ok ⟨file, user⟩ :=
          Standing.load_eq_ok_iff.2 ⟨rfl, rfl⟩
        rw [mapM_cons_of_ok hload]
        rfl

theorem any_same_of_mapM_load {standings : List Standing} {loaded : List LoadedSettings}
    (h : standings.mapM Standing.load = .ok loaded) (user : Path) :
    standings.any (·.path.same user) = loaded.any (·.path.same user) := by
  induction mapM_eq_ok_iff.1 h with
  | nil => rfl
  | cons hload hrest ih =>
    rw [List.any_cons, List.any_cons, (Standing.load_eq_ok_iff.1 hload).1, ih (mapM_eq_ok_iff.2 hrest)]

/-- A search gives what the files found and the user's own say, or the first failure. -/
theorem discover_eq (files : Files) (start : Path) (home? : Option Path) :
    discover files start home? = (found files start ++ added files start home?).mapM Standing.load := by
  have hresult : (searchAll files (candidates files start)).result =
      (found files start).mapM Standing.load := result_searchAll files (settingsPaths start)
  cases home? with
  | none =>
    rw [added, Option.bind_none, Option.filter_none, Option.toList_none, List.append_nil]
    exact hresult
  | some home =>
    rw [discover, search, added, Option.bind_some]
    have huser := user?_searchAll files (candidates files start)
    generalize searchAll files (candidates files start) = found at hresult huser
    obtain ⟨loaded, user?, failure?⟩ := found
    obtain rfl : user? = none := huser
    cases failure? with
    | some failure => exact (mapM_append_of_error hresult.symm _).symm
    | none =>
      have hloaded : (found files start).mapM Standing.load = .ok loaded := by
        rw [← hresult]
        exact congrArg Except.ok (List.append_nil _)
      rw [mapM_append_of_ok hloaded]
      simp only [any_same_of_mapM_load hloaded]
      exact result_addUserFile files (userFile home) loaded

/-! ### What a search does not see -/

/-- The paths that a search looks at, up to the first file that ends it. -/
def reached (files : Files) (start : Path) : List Path :=
  throughFirst (fun path => (standing? files path).any Standing.ends) (settingsPaths start)

theorem exists_of_mem_reached {path : Path} (h : path ∈ reached files start) :
    ∃ directory ∈ start.ancestors, path = directory.join ⟨SettingsFile.fileName⟩ := by
  obtain ⟨directory, hdirectory, hpath⟩ := List.mem_map.1 ((throughFirst_sublist _).subset h)
  exact ⟨directory, hdirectory, hpath.symm⟩

theorem mapM_load_found (files : Files) (start : Path) :
    (found files start).mapM Standing.load =
      ((reached files start).filterMap (standing? files)).mapM Standing.load := by
  rw [found, mapM_throughFirst_eq (fun _ => Standing.ends_of_isRoot) fun _ => Standing.exists_load_eq_error,
    throughFirst_filterMap]
  rfl

/-- Without a failure, all that is found is reached. -/
theorem found_eq_of_mapM_load {loaded : List LoadedSettings}
    (h : (found files start).mapM Standing.load = .ok loaded) :
    found files start = (reached files start).filterMap (standing? files) := by
  have hends : ∀ standing ∈ found files start, standing.isRoot = standing.ends := by
    intro standing hmem
    obtain ⟨loaded, hload⟩ := exists_ok_of_mapM_ok h standing hmem
    exact Standing.isRoot_eq_ends_of_load hload
  rw [reached, ← throughFirst_filterMap]
  exact throughFirst_congr hends

/-- What a search looks at depends on what it finds there. -/
theorem reached_congr (h : ∀ path ∈ reached files start, standing? other path = standing? files path) :
    reached other start = reached files start :=
  (throughFirst_congr fun path hpath => by rw [h path hpath]).symm

/-- A search depends on what stands at the paths that it looks at, and on the user's own file. -/
theorem discover_congr {home? : Option Path}
    (h : ∀ path ∈ reached files start, standing? other path = standing? files path)
    (hhome : ∀ home ∈ home?, standing? other (userFile home) = standing? files (userFile home)) :
    discover other start home? = discover files start home? := by
  have hstandings : (reached other start).filterMap (standing? other) =
      (reached files start).filterMap (standing? files) := by
    rw [reached_congr h]
    exact List.filterMap_congr h
  have hload : (found other start).mapM Standing.load = (found files start).mapM Standing.load := by
    rw [mapM_load_found, mapM_load_found, hstandings]
  rw [discover_eq, discover_eq]
  cases hfound : (found files start).mapM Standing.load with
  | error failure => rw [mapM_append_of_error hfound, mapM_append_of_error (hload.trans hfound)]
  | ok loaded =>
    have hsame : found other start = found files start := by
      rw [found_eq_of_mapM_load (hload.trans hfound), hstandings, found_eq_of_mapM_load hfound]
    have huser : (home?.bind fun home => standing? other (userFile home)) =
        home?.bind fun home => standing? files (userFile home) := by
      cases home? with
      | none => rfl
      | some home => exact hhome home rfl
    rw [added, added, hsame, huser]

/-! ### Searches in a tree -/

section

variable {tree other : Tree}

theorem standing?_congr {path : Path} (h : other.find? path = tree.find? path) :
    standing? other.files path = standing? tree.files path := by
  have hfile : other.files.isFile path = tree.files.isFile path := Tree.isFile_congr h
  rw [standing?, standing?, hfile]
  cases htree : tree.files.isFile path with
  | false => rfl
  | true =>
    have hread : other.files.read path = tree.files.read path := Tree.readText_congr h htree
    rw [readFile, readFile, hread]

theorem isName_fileName : Path.IsName SettingsFile.fileName := by decide

/-- Where a path never goes up, the settings file of a directory is what stands at its address. -/
theorem standing?_join_congr {directory : Path} (hdirectory : directory.IsStraight)
    (h : other.item? (directory.join ⟨SettingsFile.fileName⟩).toAddress =
      tree.item? (directory.join ⟨SettingsFile.fileName⟩).toAddress) :
    standing? other.files (directory.join ⟨SettingsFile.fileName⟩) =
      standing? tree.files (directory.join ⟨SettingsFile.fileName⟩) := by
  rw [(hdirectory.join isName_fileName).2] at h
  refine standing?_congr ?_
  rw [Tree.find?_join other hdirectory isName_fileName, Tree.find?_join tree hdirectory isName_fileName, h]

theorem map_path_found_sublist (files : Files) (start : Path) :
    ((found files start).map (·.path)).Sublist (settingsPaths start) := by
  have hstandings : ((settingsPaths start).filterMap (standing? files)).map (·.path) =
      (settingsPaths start).filter files.isFile := by
    rw [List.map_filterMap, ← List.filterMap_eq_filter]
    refine List.filterMap_congr fun path _ => ?_
    rw [standing?, Option.guard]
    split
    · rfl
    · rfl
  refine ((throughFirst_sublist _).map _).trans ?_
  rw [hstandings]
  exact List.filter_sublist

/-- The settings files of a directory may stand at the beginnings of its address, longest first. -/
theorem map_toAddress_settingsPaths (hstart : start.IsStraight) :
    (settingsPaths start).map Path.toAddress =
      start.toAddress.inits.reverse.map (· ++ [SettingsFile.fileName]) := by
  rw [← hstart.map_toAddress_ancestors, settingsPaths, List.map_map, List.map_map]
  refine List.map_congr_left fun directory hmem => ?_
  rw [Function.comp_apply, Function.comp_apply, ((hstart.of_mem_ancestors hmem).join isName_fileName).2]

theorem isStraight_of_mem_settingsPaths (hstart : start.IsStraight) {path : Path}
    (h : path ∈ settingsPaths start) : path.IsStraight := by
  obtain ⟨directory, hmem, rfl⟩ := List.mem_map.1 h
  exact ((hstart.of_mem_ancestors hmem).join isName_fileName).1

theorem isStraight_of_mem_found (hstart : start.IsStraight) {standing : Standing}
    (h : standing ∈ found files start) : standing.path.IsStraight :=
  isStraight_of_mem_settingsPaths hstart
    ((map_path_found_sublist files start).subset (List.mem_map_of_mem h))

/-- The user's own file comes last when it is not among the files found. -/
theorem mem_added_iff {home? : Option Path} (hstart : start.IsStraight)
    (hhome : ∀ home ∈ home?, home.IsStraight) {standing : Standing} :
    standing ∈ added files start home? ↔
      ∃ home ∈ home?, standing? files (userFile home) = some standing ∧
        ∀ near ∈ found files start, near.path.toAddress ≠ standing.path.toAddress := by
  have hsame : ∀ near ∈ found files start, ∀ home ∈ home?,
      standing? files (userFile home) = some standing →
        (near.path.same standing.path = true ↔ near.path.toAddress = standing.path.toAddress) := by
    intro near hnear home hmem hstanding
    rw [path_of_standing? hstanding]
    exact (isStraight_of_mem_found hstart hnear).same_iff ((hhome home hmem).join isName_fileName).1
  rw [added, Option.mem_toList, Option.filter_eq_some_iff, Option.bind_eq_some_iff]
  simp only [Bool.not_eq_true', List.any_eq_false]
  constructor
  · rintro ⟨⟨home, hmem, hstanding⟩, hnew⟩
    exact ⟨home, hmem, hstanding, fun near hnear haddress =>
      hnew near hnear ((hsame near hnear home hmem hstanding).2 haddress)⟩
  · rintro ⟨home, hmem, hstanding, hnew⟩
    exact ⟨⟨home, hmem, hstanding⟩, fun near hnear h =>
      hnew near hnear ((hsame near hnear home hmem hstanding).1 h)⟩

/-- No file is found twice. -/
theorem nodup_toAddress_found_append_added {home? : Option Path} (hstart : start.IsStraight)
    (hhome : ∀ home ∈ home?, home.IsStraight) :
    ((found files start ++ added files start home?).map (·.path.toAddress)).Nodup := by
  have hpaths : ((settingsPaths start).map Path.toAddress).Nodup := by
    rw [map_toAddress_settingsPaths hstart]
    exact (List.nodup_reverse.2 (Path.nodup_inits _)).map fun _ _ => List.append_cancel_right
  have hfound : ((found files start).map (·.path.toAddress)).Nodup := by
    have hsublist := (map_path_found_sublist files start).map Path.toAddress
    simp only [List.map_map, Function.comp_def] at hsublist
    exact hpaths.sublist hsublist
  have hadded : ((added files start home?).map (·.path.toAddress)).Nodup := by
    rw [added]
    cases ((home?.bind fun home => standing? files (userFile home)).filter _) with
    | none => exact List.nodup_nil
    | some standing => exact List.nodup_singleton _
  rw [List.map_append, List.nodup_append']
  refine ⟨hfound, hadded, ?_⟩
  intro address hnearAddress hownAddress
  obtain ⟨near, hnear, rfl⟩ := List.mem_map.1 hnearAddress
  obtain ⟨own, hown, haddress⟩ := List.mem_map.1 hownAddress
  obtain ⟨home, -, -, hnew⟩ := (mem_added_iff hstart hhome).1 hown
  exact hnew near hnear haddress.symm

/-- What a search for the settings files of a directory gives, and, with a home directory, for the user's
own. The files are those of the directory and of the directories above it, nearest first, up to the first
with the root mark, and the user's own if it is not one of them; none is there twice. The search gives what
they say, in order, or it fails as the first of them does that cannot be read. What lies beyond the first
with the root mark, or beyond the first that cannot be read, does not bear on it. -/
theorem discover_nearest_first {home? : Option Path} (hstart : start.IsStraight)
    (hhome : ∀ home ∈ home?, home.IsStraight) (tree : Tree) :
    (settingsPaths start).map Path.toAddress =
        start.toAddress.inits.reverse.map (· ++ [SettingsFile.fileName]) ∧
      (∀ own, own ∈ added tree.files start home? ↔
        ∃ home ∈ home?, standing? tree.files (userFile home) = some own ∧
          ∀ near ∈ found tree.files start, near.path.toAddress ≠ own.path.toAddress) ∧
      ((found tree.files start ++ added tree.files start home?).map (·.path.toAddress)).Nodup ∧
      (∀ loaded, discover tree.files start home? = .ok loaded ↔
        List.Forall₂
          (fun standing loaded => loaded.path = standing.path ∧ standing.reading = .ok loaded.file)
          (found tree.files start ++ added tree.files start home?) loaded) ∧
      (∀ failure, discover tree.files start home? = .error failure ↔
        ∃ front broken back,
          found tree.files start ++ added tree.files start home? = front ++ broken :: back ∧
            (∀ standing ∈ front, ∃ file, standing.reading = .ok file) ∧
              broken.reading = .error failure) ∧
      ∀ other : Tree,
        (∀ path ∈ reached tree.files start ++ home?.toList.map userFile,
          other.item? path.toAddress = tree.item? path.toAddress) →
          discover other.files start home? = discover tree.files start home? := by
  refine ⟨map_toAddress_settingsPaths hstart, fun own => mem_added_iff hstart hhome,
    nodup_toAddress_found_append_added hstart hhome, fun loaded => ?_, fun failure => ?_, fun other h => ?_⟩
  · rw [discover_eq, mapM_eq_ok_iff]
    simp only [Standing.load_eq_ok_iff]
  · have hread : ∀ standing : Standing,
        (∃ loaded, standing.load = .ok loaded) ↔ ∃ file, standing.reading = .ok file := by
      intro standing
      simp only [Standing.load_eq_ok_iff]
      exact ⟨fun ⟨loaded, h⟩ => ⟨loaded.file, h.2⟩, fun ⟨file, h⟩ => ⟨⟨file, standing.path⟩, rfl, h⟩⟩
    rw [discover_eq, mapM_eq_error_iff]
    simp only [Standing.load_eq_error_iff, hread]
  · refine discover_congr (fun path hpath => ?_) fun home hmem => ?_
    · obtain ⟨directory, hdirectory, rfl⟩ := exists_of_mem_reached hpath
      have hitem := h _ (List.mem_append_left _ hpath)
      exact standing?_join_congr (hstart.of_mem_ancestors hdirectory) hitem
    · have hmem' : userFile home ∈ home?.toList.map userFile :=
        List.mem_map_of_mem (Option.mem_toList.2 hmem)
      have hitem := h _ (List.mem_append_right _ hmem')
      exact standing?_join_congr (hhome home hmem) hitem

/-- A file with the root mark, the user's own above it, and a broken file above both. -/
def markedBelowHome : Tree :=
  ([["h"], ["h", "w"]].foldl (·.set · .directory) Tree.empty).set [".eolguard.toml"] (.file "=".toUTF8)
    |>.set ["h", ".eolguard.toml"] (.file "respect-editorconfig = false".toUTF8)
    |>.set ["h", "w", ".eolguard.toml"] (.file "root = true".toUTF8)

theorem discover_markedBelowHome :
    (⟨"/h/w/src"⟩ : Path).IsStraight ∧ (∀ home ∈ some (⟨"/h"⟩ : Path), home.IsStraight) ∧
      discover markedBelowHome.files ⟨"/h/w/src"⟩ (some ⟨"/h"⟩) =
        .ok [⟨⟨true, none, none, none, [], []⟩, ⟨"/h/w/.eolguard.toml"⟩⟩,
          ⟨⟨false, none, some false, none, [], []⟩, ⟨"/h/.eolguard.toml"⟩⟩] := by
  have hstart : (⟨"/h/w/src"⟩ : Path).IsStraight := by decide +kernel
  have hhome : ∀ home ∈ some (⟨"/h"⟩ : Path), home.IsStraight := by
    rintro home hmem
    obtain rfl := Option.mem_some_iff.1 hmem
    decide +kernel
  have hfiles : found markedBelowHome.files ⟨"/h/w/src"⟩ ++
      added markedBelowHome.files ⟨"/h/w/src"⟩ (some ⟨"/h"⟩) =
      [⟨⟨"/h/w/.eolguard.toml"⟩, .ok ⟨true, none, none, none, [], []⟩⟩,
        ⟨⟨"/h/.eolguard.toml"⟩, .ok ⟨false, none, some false, none, [], []⟩⟩] := by decide +kernel
  refine ⟨hstart, hhome, ((discover_nearest_first hstart hhome markedBelowHome).2.2.2.1 _).2 ?_⟩
  rw [hfiles]
  exact .cons ⟨rfl, rfl⟩ (.cons ⟨rfl, rfl⟩ .nil)

end

end LineEndings.Settings

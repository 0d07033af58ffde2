/-
Searches that start from a path with detours.

A search for settings files looks into the directories that its path passes, and it does not look where `..` leads
before it goes up. So it finds what stands in these directories (`map_summary_found`): in the directory that the
path leads to and in those above it, but also in each directory that a `..` leaves, and in some directories twice.

* `discover_passed` — what is found on the way, and that the path may be taken to its normal form if it never goes
  up, and not otherwise.
-/
import LineEndings.Proofs.Settings.Discovering
import LineEndings.Proofs.Tree.Ascending

namespace LineEndings.Settings

open SettingsFile (fileName)

variable {files : Files} {tree : Tree} {start other directory : Path} {home? : Option Path}

/-! ### Files by their addresses -/

/-- The address of a settings file, and what it says if it can be read. -/
def Standing.summary (standing : Standing) : Address × Option SettingsFile :=
  (standing.path.toAddress, standing.reading.toOption)

/-- Whether a file can be read and has the root mark. -/
def isMarked (summary : Address × Option SettingsFile) : Bool :=
  summary.2.any (·.root)

/-- A file that can be read. -/
def legible? (summary : Address × Option SettingsFile) : Option (Address × SettingsFile) :=
  summary.2.map (summary.1, ·)

/-- What a search gives, file by file with their addresses; nothing if it fails. -/
def answer? (files : Files) (start : Path) (home? : Option Path) : Option (List (Address × SettingsFile)) :=
  (discover files start home?).toOption.map (List.map fun loaded => (loaded.path.toAddress, loaded.file))

/-- The settings file in the directory at an address, and what it says if it can be read. -/
def settingsAt? (tree : Tree) (directory : Address) : Option (Address × Option SettingsFile) :=
  match tree.item? (directory ++ [fileName]) with
  | some (.file content) =>
    some (directory ++ [fileName], (String.fromUTF8? content).bind fun text =>
      (SettingsFile.read (.ofAddress (directory ++ [fileName])) text).toOption)
  | _ => none

theorem isMarked_summary (standing : Standing) : isMarked standing.summary = standing.isRoot := by
  rw [isMarked, Standing.summary, Standing.isRoot]
  cases standing.reading with
  | error failure => rfl
  | ok file => rfl

theorem map_fst_summary (standings : List Standing) :
    (standings.map Standing.summary).map Prod.fst = standings.map (·.path.toAddress) := by
  rw [List.map_map]
  rfl

/-- Files are given by what they say, or the search fails. -/
theorem toOption_mapM_load (standings : List Standing) :
    (standings.mapM Standing.load).toOption.map
        (List.map fun loaded => (loaded.path.toAddress, loaded.file)) =
      (standings.map Standing.summary).mapM legible? := by
  induction standings with
  | nil => rfl
  | cons standing standings ih =>
    cases hreading : standing.reading with
    | error failure =>
      have hnone : legible? standing.summary = none := by
        rw [legible?, Standing.summary, hreading]
        rfl
      rw [mapM_cons_of_error (Standing.load_eq_error_iff.2 hreading), List.map_cons, List.mapM_cons, hnone]
      rfl
    | ok file =>
      have hload : standing.load = .ok ⟨file, standing.path⟩ := Standing.load_eq_ok_iff.2 ⟨rfl, hreading⟩
      have hsome : legible? standing.summary = some (standing.path.toAddress, file) := by
        rw [legible?, Standing.summary, hreading]
        rfl
      rw [mapM_cons_of_ok hload, List.map_cons, List.mapM_cons, hsome, ← ih]
      cases standings.mapM Standing.load with
      | error failure => rfl
      | ok loaded => rfl

theorem answer?_eq (files : Files) (start : Path) (home? : Option Path) :
    answer? files start home? =
      ((found files start ++ added files start home?).map Standing.summary).mapM legible? := by
  rw [answer?, discover_eq, toOption_mapM_load]

theorem answer?_none (files : Files) (start : Path) :
    answer? files start none = ((found files start).map Standing.summary).mapM legible? := by
  rw [answer?_eq, added, Option.bind_none, Option.filter_none, Option.toList_none, List.append_nil]

/-! ### Files on the way -/

/-- What a text says does not depend on where it stands. -/
theorem toOption_read (path place : Path) (contents : String) :
    (SettingsFile.read path contents).toOption = (SettingsFile.read place contents).toOption := by
  rw [SettingsFile.read, SettingsFile.read]
  cases (Toml.document? contents).bind SettingsFile.ofDocument? with
  | none => rfl
  | some file => rfl

theorem map_summary_standing? (habsolute : directory.isAbsolute = true)
    (h : tree.find? (directory.join ⟨fileName⟩) = tree.item? (directory.toAddress ++ [fileName])) :
    (standing? tree.files (directory.join ⟨fileName⟩)).map Standing.summary =
      settingsAt? tree directory.toAddress := by
  have hnone (hno : tree.isFile (directory.join ⟨fileName⟩) = false) :
      standing? tree.files (directory.join ⟨fileName⟩) = none := standing?_of_not_isFile hno
  rw [settingsAt?, ← h]
  cases hfind : tree.find? (directory.join ⟨fileName⟩) with
  | none =>
    rw [hnone (by rw [Tree.isFile, hfind])]
    rfl
  | some item =>
    cases item with
    | directory =>
      rw [hnone (by rw [Tree.isFile, hfind])]
      rfl
    | file content =>
      rw [standing?_of_isFile (Tree.isFile_iff.2 ⟨content, hfind⟩), Option.map_some, Standing.summary]
      dsimp only
      rw [Path.toAddress_join habsolute isName_fileName]
      have hread : tree.files.read (directory.join ⟨fileName⟩) = tree.readText (directory.join ⟨fileName⟩) := rfl
      rw [readFile, hread, Tree.readText, Tree.read_of_find? hfind]
      dsimp only
      cases String.fromUTF8? content with
      | none => rfl
      | some text => rw [Option.bind_some, ← toOption_read]

/-- What is found on the way up is what stands in the directories that are passed. -/
theorem map_summary_found (habsolute : start.isAbsolute = true)
    (h : ∀ directory ∈ start.ancestors,
      tree.find? (directory.join ⟨fileName⟩) = tree.item? (directory.toAddress ++ [fileName])) :
    (found tree.files start).map Standing.summary =
      throughFirst isMarked (start.passed.filterMap (settingsAt? tree)) := by
  have hstandings : ((settingsPaths start).filterMap (standing? tree.files)).map Standing.summary =
      start.passed.filterMap (settingsAt? tree) := by
    rw [settingsPaths, Path.passed, List.map_filterMap, List.filterMap_map, List.filterMap_map]
    refine List.filterMap_congr fun directory hmem => ?_
    rw [Function.comp_apply, Function.comp_apply]
    exact map_summary_standing? (Path.isAbsolute_of_mem_ancestors hmem ▸ habsolute) (h directory hmem)
  rw [← hstandings, throughFirst_map]
  simp only [isMarked_summary, found]

/-- A search that starts from a directory finds what stands in the directories that are passed. -/
theorem map_summary_found_of_isDirectory (h : tree.isDirectory start = true)
    (hsize : (start.join ⟨fileName⟩).text.utf8ByteSize ≤ maxPathSize) :
    (found tree.files start).map Standing.summary =
      throughFirst isMarked (start.passed.filterMap (settingsAt? tree)) := by
  have habsolute := (Tree.toAddress_of_locate (Tree.isDirectory_iff.1 h).1).1
  refine map_summary_found habsolute fun directory hmem => ?_
  refine Tree.find?_join_of_isDirectory (Tree.isDirectory_of_mem_ancestors h hmem) isName_fileName (by decide)
    (by decide) ?_
  exact (Path.utf8ByteSize_join_le habsolute (Path.isAbsolute_name isName_fileName) hmem).trans hsize

/-- A search that starts from a normal form finds what stands in the directories above the address. -/
theorem map_summary_found_normalize (tree : Tree) (habsolute : start.isAbsolute = true) :
    (found tree.files start.normalize).map Standing.summary =
      throughFirst isMarked (start.toAddress.inits.reverse.filterMap (settingsAt? tree)) := by
  have hnames : ∀ s ∈ start.toAddress, Path.IsName s := fun s => Path.isName_of_mem_toAddress
  have hstraight := Path.isStraight_normalize habsolute
  have hpassed : start.normalize.passed = start.toAddress.inits.reverse := by
    rw [(Path.passed_eq_iff hstraight.1).2 hstraight.2, Path.normalize_of_absolute habsolute,
      Path.toAddress_ofAddress hnames]
  rw [← hpassed]
  refine map_summary_found hstraight.1 fun directory hmem => ?_
  rw [Path.normalize_of_absolute habsolute, Path.ancestors_ofAddress hnames] at hmem
  obtain ⟨above, habove, rfl⟩ := List.mem_map.1 hmem
  have haboveNames : ∀ s ∈ above, Path.IsName s := by
    have hbegins : above <+: start.toAddress := by simpa using habove
    exact fun s hs => hnames s (hbegins.subset hs)
  rw [Path.join_ofAddress haboveNames isName_fileName, Path.toAddress_ofAddress haboveNames,
    Tree.find?_ofAddress tree (Path.isName_snoc haboveNames isName_fileName)]

/-! ### Paths that never go up -/

/-- Whether the user's own file has been found depends on the addresses of the files found. -/
theorem any_same_found_iff (hstart : start.IsStraight) (user : Path) :
    (found files start).any (·.path.same user) = true ↔
      ∃ address ∈ (found files start).map (·.path.toAddress),
        Component.root :: address.map .name = user.components := by
  simp only [List.any_eq_true, List.mem_map, exists_exists_and_eq_and]
  refine exists_congr fun standing => and_congr_right fun hmem => ?_
  rw [Path.same, beq_iff_eq, (isStraight_of_mem_found hstart hmem).components_eq]

theorem added_congr (hstart : start.IsStraight) (hother : other.IsStraight)
    (h : (found files start).map Standing.summary = (found files other).map Standing.summary) :
    added files start home? = added files other home? := by
  have haddresses : (found files start).map (·.path.toAddress) = (found files other).map (·.path.toAddress) := by
    rw [← map_fst_summary, ← map_fst_summary, h]
  have hsame : ∀ user : Path, (found files start).any (·.path.same user) =
      (found files other).any (·.path.same user) := by
    intro user
    rw [Bool.eq_iff_iff, any_same_found_iff hstart, any_same_found_iff hother, haddresses]
  simp only [added, hsame]

/-! ### Settings in every directory -/

/-- Where there are settings in every directory, and none has the root mark, they are all found. -/
theorem exists_mapM_legible? {directories : List Address}
    (h : ∀ directory ∈ directories, ∃ file,
      settingsAt? tree directory = some (directory ++ [fileName], some file) ∧ file.root = false) :
    ∃ answer, (throughFirst isMarked (directories.filterMap (settingsAt? tree))).mapM legible? = some answer ∧
      answer.map Prod.fst = directories.map (· ++ [fileName]) := by
  induction directories with
  | nil => exact ⟨[], rfl, rfl⟩
  | cons directory directories ih =>
    obtain ⟨⟨file, hfile, hroot⟩, hrest⟩ := List.forall_mem_cons.1 h
    obtain ⟨answer, hanswer, haddresses⟩ := ih hrest
    refine ⟨(directory ++ [fileName], file) :: answer, ?_, by simp [haddresses]⟩
    rw [List.filterMap_cons_some hfile, throughFirst_cons, isMarked, Option.any_some, hroot,
      if_neg Bool.false_ne_true, List.mapM_cons, hanswer]
    rfl

/-- What a search finds, for any directory that it starts from. It looks into the directories that the path passes,
nearest first: those that the address stands in are among them, and there are no others, and none twice, exactly
when the path never goes up. Then the path may be taken to its normal form, and no file is found twice; where there
are settings in every directory that is passed, then and only then. -/
theorem discover_passed {start : Path} (tree : Tree) (hdirectory : tree.isDirectory start = true)
    (hsize : (start.join ⟨fileName⟩).text.utf8ByteSize ≤ maxPathSize) :
    (found tree.files start).map Standing.summary =
        throughFirst isMarked (start.passed.filterMap (settingsAt? tree)) ∧
      (found tree.files start.normalize).map Standing.summary =
        throughFirst isMarked (start.toAddress.inits.reverse.filterMap (settingsAt? tree)) ∧
      start.toAddress.inits.reverse.Sublist start.passed ∧
      (start.passed = start.toAddress.inits.reverse ↔ .parent ∉ start.components) ∧
      (.parent ∉ start.components → ∀ home?,
        answer? tree.files start home? = answer? tree.files start.normalize home? ∧
          ((∀ home ∈ home?, home.IsStraight) →
            ((found tree.files start ++ added tree.files start home?).map (·.path.toAddress)).Nodup)) ∧
      ((∀ directory ∈ start.passed, ∃ file,
          settingsAt? tree directory = some (directory ++ [fileName], some file) ∧ file.root = false) →
        (answer? tree.files start none = answer? tree.files start.normalize none ↔
          .parent ∉ start.components)) := by
  have habsolute := (Tree.toAddress_of_locate (Tree.isDirectory_iff.1 hdirectory).1).1
  have hfound := map_summary_found_of_isDirectory hdirectory hsize
  have hnormal := map_summary_found_normalize tree habsolute
  have hpassed := Path.passed_eq_iff habsolute
  have hsublist := Path.reverse_inits_sublist_passed habsolute
  have hanswer : .parent ∉ start.components → ∀ home?,
      answer? tree.files start home? = answer? tree.files start.normalize home? := by
    intro hparent home?
    have hsame : (found tree.files start).map Standing.summary =
        (found tree.files start.normalize).map Standing.summary := by
      rw [hfound, hnormal, hpassed.2 hparent]
    rw [answer?_eq, answer?_eq, List.map_append, List.map_append, hsame,
      added_congr ⟨habsolute, hparent⟩ (Path.isStraight_normalize habsolute) hsame]
  refine ⟨hfound, hnormal, hsublist, hpassed, fun hparent home? => ⟨hanswer hparent home?, fun hhome => ?_⟩,
    fun hall => ⟨fun heq => ?_, fun hparent => hanswer hparent none⟩⟩
  · exact nodup_toAddress_found_append_added ⟨habsolute, hparent⟩ hhome
  · obtain ⟨answer, hanswers, haddresses⟩ := exists_mapM_legible? hall
    obtain ⟨answer', hanswers', haddresses'⟩ :=
      exists_mapM_legible? fun directory hmem => hall directory (hsublist.subset hmem)
    rw [answer?_none, answer?_none, hfound, hnormal, hanswers, hanswers'] at heq
    rw [Option.some.inj heq, haddresses'] at haddresses
    exact hpassed.1 (List.map_injective_iff.2 (fun _ _ => List.append_cancel_right) haddresses).symm

/-- A directory in a directory, with settings in both and at the top. -/
def settled : Tree :=
  ([["w"], ["w", "b"]].foldl (·.set · .directory) Tree.empty).set [".eolguard.toml"] (.file "".toUTF8)
    |>.set ["w", ".eolguard.toml"] (.file "respect-editorconfig = false".toUTF8)
    |>.set ["w", "b", ".eolguard.toml"] (.file "expected-eol = \"crlf\"".toUTF8)

/-- Out of a directory and into it: the first path passes it, the second says no more than its normal form. -/
theorem discover_settled :
    settled.isDirectory ⟨"/w/b/.."⟩ = true ∧ settled.isDirectory ⟨"/w//b/."⟩ = true ∧
      answer? settled.files ⟨"/w/b/.."⟩ none ≠ answer? settled.files (Path.mk "/w/b/..").normalize none ∧
      answer? settled.files ⟨"/w//b/."⟩ (some ⟨"/w"⟩) =
        answer? settled.files (Path.mk "/w//b/.").normalize (some ⟨"/w"⟩) := by
  have hup : settled.isDirectory ⟨"/w/b/.."⟩ = true := by decide +kernel
  have hdown : settled.isDirectory ⟨"/w//b/."⟩ = true := by decide +kernel
  have hpassed : (Path.mk "/w/b/..").passed = [["w"], ["w", "b"], ["w"], []] := by decide +kernel
  obtain ⟨-, -, -, -, -, hiff⟩ := discover_passed settled hup (by decide +kernel)
  obtain ⟨-, -, -, -, hsame, -⟩ := discover_passed settled hdown (by decide +kernel)
  have hall : ∀ directory ∈ (Path.mk "/w/b/..").passed, ∃ file,
      settingsAt? settled directory = some (directory ++ [fileName], some file) ∧ file.root = false := by
    rw [hpassed]
    have hw : settingsAt? settled ["w"] =
        some (["w", fileName], some ⟨false, none, some false, none, [], []⟩) := by decide +kernel
    have hb : settingsAt? settled ["w", "b"] =
        some (["w", "b", fileName], some ⟨false, some (.fixed .crlf), none, none, [], []⟩) := by decide +kernel
    have htop : settingsAt? settled [] = some ([fileName], some ⟨false, none, none, none, [], []⟩) := by
      decide +kernel
    simp only [List.forall_mem_cons]
    exact ⟨⟨_, hw, rfl⟩, ⟨_, hb, rfl⟩, ⟨_, hw, rfl⟩, ⟨_, htop, rfl⟩, by simp⟩
  refine ⟨hup, hdown, fun heq => ?_, (hsame (by decide +kernel) _).1⟩
  exact (hiff hall).1 heq (by decide +kernel)

/-- A directory with nothing in it but another that has settings. -/
def settledBelow : Tree :=
  ([["w"], ["w", "b"]].foldl (·.set · .directory) Tree.empty).set ["w", "b", ".eolguard.toml"]
    (.file "expected-eol = \"crlf\"\n".toUTF8)

/-- In and out of the directory below, its settings are loaded. -/
theorem discover_beside :
    (∀ directory ∈ (Path.mk "/w/b/..").ancestors, settledBelow.isDirectory directory = true) ∧
      (Path.mk "/w/b/..").normalize = ⟨"/w"⟩ ∧
      discover settledBelow.files ⟨"/w/b/.."⟩ none =
        .ok [⟨⟨false, some (.fixed .crlf), none, none, [], []⟩, ⟨"/w/b/.eolguard.toml"⟩⟩] ∧
      discover settledBelow.files ⟨"/w"⟩ none = .ok [] := by
  decide +kernel

end LineEndings.Settings

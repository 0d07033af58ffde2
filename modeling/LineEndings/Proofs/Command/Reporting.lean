/-
What the program says about the files that it mends.

Files are mended one after another. Each step leaves all as it is and says nothing, or it gives one file other
bytes and says so in one record (`Repair.fix_cases`). So when all steps are done, the records name the files that
have changed since the first one, each once, and their number has been counted (`Repair.foldl_fix`). Before the
first step a run only reads, so if it ends there, it leaves the tree as it was.

* `fixFiles_reports` — mending what has been collected changes what the records name, and nothing else;
* `run_fix` — so does the whole program, and otherwise it fails and changes nothing.

A record names a file by its label, which has a slash for every backslash in the name and keeps line feeds. So a
reader of the printed text, who has nothing but its lines, reads off the files (`filesNamed`) as long as neither
is in their paths. A backslash may make a record name another file (`Workspace.absolute_label` tells when it does
not), and a line feed cuts a record into lines that may look like those of other files (`Output.pieces_text`).
`run_fix_misleads` has a tree for each.
-/
import LineEndings.Proofs.Workspace.Agreeing
import LineEndings.Proofs.Workspace.FixRun
import LineEndings.Proofs.Workspace.Pruning

namespace LineEndings

/-! ### Changes -/

/-- Whether a tree is an earlier one where the files at some addresses hold other bytes, and all else is as it
was. -/
structure Tree.ChangedAt (before : Tree) (changed : List Address) (after : Tree) : Prop where
  files : ∀ address ∈ changed, ∃ old new, before.item? address = some (.file old) ∧
    after.item? address = some (.file new) ∧ new ≠ old
  others : ∀ address, address ∉ changed → after.item? address = before.item? address

theorem Tree.changedAt_nil (tree : Tree) : tree.ChangedAt [] tree :=
  ⟨fun _ h => absurd h List.not_mem_nil, fun _ _ => rfl⟩

/-- A file that has been changed is followed by others. -/
theorem Tree.ChangedAt.cons {before between after : Tree} {address : Address} {changed : List Address}
    {old new : ByteArray} (hold : before.item? address = some (.file old)) (hnew : new ≠ old)
    (hbetween : ∀ a, between.item? a = if a = address then some (.file new) else before.item? a)
    (hnot : address ∉ changed) (h : between.ChangedAt changed after) :
    before.ChangedAt (address :: changed) after := by
  constructor
  · intro a hmem
    rcases List.mem_cons.1 hmem with rfl | ha
    · exact ⟨old, new, hold, by rw [h.others a hnot, hbetween, if_pos rfl], hnew⟩
    · obtain ⟨old', new', hold', hnew', hne⟩ := h.files a ha
      have hne' : a ≠ address := fun heq => hnot (heq ▸ ha)
      rw [hbetween, if_neg hne'] at hold'
      exact ⟨old', new', hold', hnew', hne⟩
  · intro a ha
    rw [List.mem_cons, not_or] at ha
    obtain ⟨hne, ha⟩ := ha
    rw [h.others a ha, hbetween, if_neg hne]

namespace Command

variable {workspace : Workspace} {request : Request} {repair : Repair} {address : Address}
  {addresses : List Address} {content : ByteArray}

/-! ### What is printed -/

@[simp] theorem Output.lines_append (first second : Output) :
    (first ++ second).lines = first.lines ++ second.lines := rfl

@[simp] theorem lines_whenVerbose (request : Request) (records : List String) :
    (whenVerbose request records).lines = [] := by
  unfold whenVerbose
  split <;> rfl

@[simp] theorem Output.lines_ofLines (lines : List String) : (Output.ofLines lines).lines = lines := rfl

/-- What is printed, cut into lines: those of one record after those of another, and nothing behind the last
line feed. -/
theorem Output.pieces_text (output : Output) :
    Text.pieces '\n' output.text.toList =
      (output.lines.flatMap fun record => Text.pieces '\n' record.toList) ++ [[]] := by
  obtain ⟨records, errors⟩ := output
  rw [Output.text]
  induction records with
  | nil => rfl
  | cons record records ih =>
    have htext : (String.join ((record :: records).map (· ++ "\n"))).toList =
        record.toList ++ '\n' :: (String.join (records.map (· ++ "\n"))).toList := by
      rw [List.map_cons, String.join_cons, String.toList_append, String.toList_append, List.append_assoc]
      rfl
    rw [htext, Text.pieces_append_cons, ih, List.flatMap_cons, List.append_assoc]

/-- The record that names a changed file. -/
def fixedRecord (workspace : Workspace) (address : Address) : String :=
  "fixed " ++ workspace.label (.ofAddress address)

/-- The record that says how many files have changed. -/
def fixedSummary (count : Nat) : String :=
  "Fixed " ++ toString count ++ " files."

theorem newline_notMem_fixedSummary (count : Nat) : '\n' ∉ (fixedSummary count).toList := by
  have hdigits : '\n' ∉ Nat.toDigits 10 count :=
    fun hmem => absurd (Nat.isDigit_of_mem_toDigits (by decide) (by decide) hmem) (by decide)
  simp [fixedSummary, hdigits]

/-- The file that a line names as changed, if it is such a line. -/
def fileNamed? (workspace : Workspace) (line : List Char) : Option Path :=
  ("fixed ".toList.isPrefixOf? line).map fun label => workspace.absolute ⟨String.ofList label⟩

/-- The files that the lines of a text name as changed. -/
def filesNamed (workspace : Workspace) (text : String) : List Path :=
  (Text.pieces '\n' text.toList).filterMap (fileNamed? workspace)

theorem fileNamed?_fixedRecord (workspace : Workspace) (address : Address) :
    fileNamed? workspace (fixedRecord workspace address).toList =
      some (workspace.absolute ⟨workspace.label (.ofAddress address)⟩) := by
  have hlabel : "fixed ".toList.isPrefixOf? (fixedRecord workspace address).toList =
      some (workspace.label (.ofAddress address)).toList := by
    rw [List.isPrefixOf?_eq_some_iff_append_eq, fixedRecord, String.toList_append]
  rw [fileNamed?, hlabel, Option.map_some, String.ofList_toList]

/-- Summing up names no file. -/
theorem fileNamed?_fixedSummary (workspace : Workspace) (count : Nat) :
    fileNamed? workspace (fixedSummary count).toList = none := by
  rw [fileNamed?, Option.map_eq_none_iff, Option.eq_none_iff_forall_ne_some]
  intro label hlabel
  rw [List.isPrefixOf?_eq_some_iff_append_eq] at hlabel
  simp [fixedSummary] at hlabel

/-- Where records are lines, the files that their labels lead to are read off them. -/
theorem filesNamed_eq {text : String} {changed : List Address} {count : Nat}
    (h : Text.pieces '\n' text.toList =
      (changed.map fun address => (fixedRecord workspace address).toList) ++ [(fixedSummary count).toList, []]) :
    filesNamed workspace text =
      changed.map fun address => workspace.absolute ⟨workspace.label (.ofAddress address)⟩ := by
  have hrest : [(fixedSummary count).toList, []].filterMap (fileNamed? workspace) = [] := by
    rw [List.filterMap_cons_none (fileNamed?_fixedSummary workspace count)]
    rfl
  rw [filesNamed, h, List.filterMap_append, hrest, List.append_nil, List.filterMap_map, ← List.filterMap_eq_map]
  refine List.filterMap_congr fun address _ => ?_
  rw [Function.comp_apply, Function.comp_apply]
  exact fileNamed?_fixedRecord workspace address

/-- A record is one line, unless there is a line feed in the path. -/
theorem pieces_fixedRecord {root : Address} (hroot : workspace.root = .ofAddress root)
    (hrootnames : ∀ s ∈ root, Path.IsName s) (hnames : ∀ s ∈ address, Path.IsName s)
    (hplain : '\n' ∉ (Path.ofAddress address).text.toList) :
    Text.pieces '\n' (fixedRecord workspace address).toList = [(fixedRecord workspace address).toList] := by
  refine Text.pieces_of_not_mem ?_
  rw [fixedRecord, String.toList_append, List.mem_append, not_or]
  exact ⟨by simp, Workspace.notMem_label hroot hrootnames hnames (by decide) hplain⟩

/-! ### Mending one file after another -/

/-- Mending one more file leaves everything as it is and says nothing, or gives the file other bytes and says
so. -/
theorem Repair.fix_cases (workspace : Workspace) (request : Request)
    (h : repair.tree.item? address = some (.file content)) :
    let after := repair.fix workspace request (.ofAddress address)
    (after.tree = repair.tree ∧ after.fixed = repair.fixed ∧ after.output.lines = repair.output.lines) ∨
      (∃ new, new ≠ content ∧ ∀ a, after.tree.item? a =
          if a = address then some (.file new) else repair.tree.item? a) ∧
        after.fixed = repair.fixed + 1 ∧
        after.output.lines = repair.output.lines ++ [fixedRecord workspace address] := by
  intro after
  obtain ⟨tree, hfix, htree⟩ := Workspace.fix_of_locate workspace (Tree.locate_ofAddress h) h
  cases houtcome : Outcome.ofReport (workspace.reportOn? repair.tree (.ofAddress address) content) with
  | changed target =>
    obtain ⟨report, hreport, hclean⟩ := Workspace.Outcome.ofReport_eq_changed houtcome
    obtain ⟨old, new, rfl, hnew, hne, -⟩ := Workspace.exists_text_of_reportOn? hreport hclean
    rw [houtcome] at hfix
    rw [hnew] at htree
    refine Or.inr ⟨⟨new.toUTF8, fun heq => hne (toUTF8_injective heq), ?_⟩, ?_, ?_⟩
    · simpa only [after, Repair.fix, hfix] using htree
    · simp only [after, Repair.fix, hfix]
    · simp [after, Repair.fix, hfix, fixedRecord]
  | unchanged =>
    rw [houtcome] at hfix
    obtain rfl := Workspace.eq_of_fix hfix (by simp)
    refine Or.inl ⟨?_, ?_, ?_⟩ <;> simp [after, Repair.fix, hfix]
  | skipped =>
    rw [houtcome] at hfix
    obtain rfl := Workspace.eq_of_fix hfix (by simp)
    refine Or.inl ⟨?_, ?_, ?_⟩ <;> simp [after, Repair.fix, hfix]

/-- Mending files one after another gives some of them other bytes, and names these. -/
theorem Repair.foldl_fix (workspace : Workspace) (request : Request) (repair : Repair)
    (hnodup : addresses.Nodup)
    (hfiles : ∀ address ∈ addresses, ∃ content, repair.tree.item? address = some (.file content)) :
    let after := (addresses.map Path.ofAddress).foldl (Repair.fix workspace request) repair
    ∃ changed, changed.Sublist addresses ∧ repair.tree.ChangedAt changed after.tree ∧
      after.fixed = repair.fixed + changed.length ∧
      after.output.lines = repair.output.lines ++ changed.map (fixedRecord workspace) := by
  induction addresses generalizing repair with
  | nil => exact ⟨[], .slnil, Tree.changedAt_nil _, rfl, (List.append_nil _).symm⟩
  | cons address addresses ih =>
    intro after
    obtain ⟨hnot, hnodup⟩ := List.nodup_cons.1 hnodup
    obtain ⟨content, hcontent⟩ := hfiles address (by simp)
    have hothers : ∀ a ∈ addresses, ∃ content, repair.tree.item? a = some (.file content) :=
      fun a ha => hfiles a (List.mem_cons_of_mem _ ha)
    rcases Repair.fix_cases workspace request hcontent with
      ⟨htree, hfixed, hlines⟩ | ⟨⟨new, hnew, htree⟩, hfixed, hlines⟩
    · obtain ⟨changed, hsub, hchanged, hcount, hsaid⟩ :=
        ih (repair.fix workspace request (.ofAddress address)) hnodup (htree ▸ hothers)
      rw [htree] at hchanged
      rw [hfixed] at hcount
      rw [hlines] at hsaid
      exact ⟨changed, hsub.cons address, hchanged, hcount, hsaid⟩
    · -- The other files are still there.
      have hafter : ∀ a ∈ addresses, ∃ content,
          (repair.fix workspace request (.ofAddress address)).tree.item? a = some (.file content) := by
        intro a ha
        rw [htree a, if_neg (by rintro rfl; exact hnot ha)]
        exact hothers a ha
      obtain ⟨changed, hsub, hchanged, hcount, hsaid⟩ := ih _ hnodup hafter
      refine ⟨address :: changed, hsub.cons_cons address,
        .cons hcontent hnew htree (fun hmem => hnot (hsub.subset hmem)) hchanged, ?_, ?_⟩
      · rw [List.length_cons]
        exact hcount.trans (by rw [hfixed]; omega)
      · rw [List.map_cons]
        exact hsaid.trans (by rw [hlines, List.append_assoc]; rfl)

/-- Paths that spell out files are the paths of addresses. -/
theorem exists_addresses {tree : Tree} {files : List Path}
    (h : ∀ file ∈ files, Workspace.SpellsFile tree file) :
    ∃ addresses : List Address, files = addresses.map Path.ofAddress ∧
      ∀ address ∈ addresses, ∃ content, tree.item? address = some (.file content) := by
  induction files with
  | nil => exact ⟨[], rfl, by simp⟩
  | cons file files ih =>
    obtain ⟨address, content, rfl, hitem⟩ := h file (by simp)
    obtain ⟨addresses, rfl, haddresses⟩ := ih fun f hf => h f (List.mem_cons_of_mem _ hf)
    exact ⟨address :: addresses, rfl, List.forall_mem_cons.2 ⟨⟨content, hitem⟩, haddresses⟩⟩

/-! ### Runs -/

/-- The paths that a run is about: those that are given, or the working directory. -/
def namedPaths (paths : List Path) : List Path :=
  if paths.isEmpty then [⟨"."⟩] else paths

/-- The settings of a run in a directory, from all files that a search finds. -/
def loadedSettings (place : Place) (request : Request) : Except Failure (List LoadedSettings) :=
  Settings.discover (place.tree.files.seenFrom place.directory) place.directory
    (if request.has .noUserFile then none else some place.home)

variable {place : Place} {paths : List Path}

theorem openWorkspace_of_load_error (paths : List Path) {failure : Failure}
    (h : loadedSettings place request = .error failure) :
    ∃ output, openWorkspace place request paths =
      .error (failed place output "Failed to load settings" failure) := by
  have hsearch : (searchSettings place request).1.result = .error failure := h
  refine ⟨(searchSettings place request).2, ?_⟩
  rw [openWorkspace]
  simp only [hsearch]

variable {loaded : List LoadedSettings}

/-- What a run opens, when its settings have been loaded, is what its paths stand for. -/
theorem exists_openWorkspace_eq (h : loadedSettings place request = .ok loaded) :
    let workspace := Workspace.ofSettings place.directory (Settings.merge loaded)
    ∃ output : Output, output.lines = [] ∧ ∀ paths, openWorkspace place request paths =
      match workspace.collect place.tree (namedPaths paths) with
      | .error failure => .error (failed place output "Failed to collect files" failure)
      | .ok files => .ok (workspace, files, output ++ whenVerbose request
          [debugRecord "workspace" ("Collected " ++ toString files.length ++ " files")]) := by
  intro workspace
  have hsearch : (searchSettings place request).1.result = .ok loaded := h
  refine ⟨(searchSettings place request).2, lines_whenVerbose _ _, fun paths => ?_⟩
  rw [openWorkspace]
  simp only [hsearch]
  rfl

theorem openWorkspace_of_load (paths : List Path) (h : loadedSettings place request = .ok loaded) :
    let workspace := Workspace.ofSettings place.directory (Settings.merge loaded)
    ∃ output : Output, output.lines = [] ∧ openWorkspace place request paths =
      match workspace.collect place.tree (namedPaths paths) with
      | .error failure => .error (failed place output "Failed to collect files" failure)
      | .ok files => .ok (workspace, files, output ++ whenVerbose request
          [debugRecord "workspace" ("Collected " ++ toString files.length ++ " files")]) := by
  intro workspace
  obtain ⟨output, houtput, hopen⟩ := exists_openWorkspace_eq h
  exact ⟨output, houtput, hopen paths⟩

/-- Whether a run has given the files at some addresses other bytes and changed nothing else, and reports which and
how many: in one record for each, by labels that lead back to the files but for the backslashes in them, and in
one line for each but for the line feeds in their paths. -/
structure ReportsChanges (workspace : Workspace) (before : Tree) (result : Result) (changed : List Address) :
    Prop where
  nodup : changed.Nodup
  changedAt : before.ChangedAt changed result.tree
  records : result.output.lines = changed.map (fixedRecord workspace) ++ [fixedSummary changed.length]
  /-- The records follow one another, and the last one is the last line. -/
  printed : Text.pieces '\n' result.output.text.toList =
    (changed.flatMap fun address => Text.pieces '\n' (fixedRecord workspace address).toList) ++
      [(fixedSummary changed.length).toList, []]
  /-- A record is one line, unless there is a line feed in the path. -/
  oneLine : ∀ address ∈ changed, '\n' ∉ (Path.ofAddress address).text.toList →
    Text.pieces '\n' (fixedRecord workspace address).toList = [(fixedRecord workspace address).toList]
  /-- A record names the file, unless there is a backslash in the path. -/
  leadsBack : ∀ address ∈ changed, '\\' ∉ (Path.ofAddress address).text.toList →
    workspace.absolute ⟨workspace.label (.ofAddress address)⟩ = .ofAddress address
  /-- Where neither is in a path, the lines name the changed files, each once. -/
  named : (∀ address ∈ changed, '\n' ∉ (Path.ofAddress address).text.toList ∧
      '\\' ∉ (Path.ofAddress address).text.toList) →
    filesNamed workspace result.output.text = changed.map Path.ofAddress

/-- The records determine what is printed, and so what is read off it. -/
theorem ReportsChanges.of_records {before : Tree} {result : Result} {changed : List Address} {root : Address}
    (hroot : workspace.root = .ofAddress root) (hrootnames : ∀ s ∈ root, Path.IsName s)
    (hnodup : changed.Nodup) (hchanged : before.ChangedAt changed result.tree)
    (hrecords : result.output.lines = changed.map (fixedRecord workspace) ++ [fixedSummary changed.length]) :
    ReportsChanges workspace before result changed := by
  have hnames : ∀ address ∈ changed, ∀ s ∈ address, Path.IsName s := by
    intro address hmem
    obtain ⟨old, new, hold, -⟩ := hchanged.files address hmem
    exact Tree.isName_of_item? hold
  have hprinted : Text.pieces '\n' result.output.text.toList =
      (changed.flatMap fun address => Text.pieces '\n' (fixedRecord workspace address).toList) ++
        [(fixedSummary changed.length).toList, []] := by
    rw [Output.pieces_text, hrecords, List.flatMap_append, List.flatMap_map, List.flatMap_singleton,
      Text.pieces_of_not_mem (newline_notMem_fixedSummary _), List.append_assoc]
    rfl
  have honeLine : ∀ address ∈ changed, '\n' ∉ (Path.ofAddress address).text.toList →
      Text.pieces '\n' (fixedRecord workspace address).toList = [(fixedRecord workspace address).toList] :=
    fun address hmem => pieces_fixedRecord hroot hrootnames (hnames address hmem)
  have hleadsBack : ∀ address ∈ changed, '\\' ∉ (Path.ofAddress address).text.toList →
      workspace.absolute ⟨workspace.label (.ofAddress address)⟩ = .ofAddress address :=
    fun address hmem => Workspace.absolute_label hroot hrootnames (hnames address hmem)
  refine ⟨hnodup, hchanged, hrecords, hprinted, honeLine, hleadsBack, fun hplain => ?_⟩
  have hlines : (changed.flatMap fun address => Text.pieces '\n' (fixedRecord workspace address).toList) =
      changed.map fun address => (fixedRecord workspace address).toList := by
    rw [List.map_eq_flatMap]
    exact List.flatMap_congr fun address hmem => honeLine address hmem (hplain address hmem).1
  rw [filesNamed_eq (hprinted.trans (by rw [hlines]))]
  exact List.map_congr_left fun address hmem => hleadsBack address hmem (hplain address hmem).2

/-- A run that collects files changes some of them and says which. -/
theorem fixFiles_reports (hdirectory : place.directory.isAbsolute = true)
    (h : loadedSettings place request = .ok loaded) {files : List Path}
    (hfiles : (Workspace.ofSettings place.directory (Settings.merge loaded)).collect place.tree
      (namedPaths paths) = .ok files) :
    ∃ changed : List Address, (changed.map Path.ofAddress).Sublist files ∧
      ReportsChanges (Workspace.ofSettings place.directory (Settings.merge loaded)) place.tree
        (fixFiles place request paths) changed := by
  have hroot : (Workspace.ofSettings place.directory (Settings.merge loaded)).root =
      .ofAddress place.directory.toAddress := Path.normalize_of_absolute hdirectory
  obtain ⟨output, houtput, hopen⟩ := openWorkspace_of_load paths h
  simp only [hfiles] at hopen
  obtain ⟨addresses, rfl, haddresses⟩ :=
    exists_addresses (Workspace.mem_collect (by rw [hroot, Path.isAbsolute_ofAddress]) hfiles)
  have hnodup : addresses.Nodup := List.Nodup.of_map _ (Workspace.nodup_collect hfiles)
  obtain ⟨changed, hsub, hchanged, hcount, hlines⟩ :=
    Repair.foldl_fix _ request ⟨0, 0, _, place.tree⟩ hnodup haddresses
  refine ⟨changed, hsub.map _, .of_records hroot (fun _ => Path.isName_of_mem_toAddress)
    (hnodup.sublist hsub) ?_ ?_⟩
  · rw [fixFiles, hopen]
    exact hchanged
  · rw [Output.lines_append, houtput, lines_whenVerbose, List.append_nil, List.nil_append] at hlines
    rw [Nat.zero_add] at hcount
    rw [fixFiles, hopen]
    simp only [Output.lines_append, Output.lines_ofLines, hlines, hcount, fixedSummary]

/-- Asking to mend files changes only what is reported. Where the settings cannot be loaded, or a path leads
neither to a file nor to a directory, the run fails and leaves the tree as it is. Otherwise its records name the
files that have changed, each once, and say how many they are; all of them have been collected, and none is
ignored. Where there is no line feed and no backslash in their paths, so do the lines of the printed text. -/
theorem run_fix {args : List String} (hdirectory : place.directory.isAbsolute = true)
    (hargs : readArguments args = .ok request) (hinit : request.has .init = false)
    (haction : request.action? = some (.fix paths)) :
    let here : Place := { place with directory := place.directory.normalize }
    let result := run place args
    (∀ failure, loadedSettings here request = .error failure →
      result.exit = 1 ∧ result.tree = place.tree) ∧
    ∀ loaded, loadedSettings here request = .ok loaded →
      let workspace := Workspace.ofSettings here.directory (Settings.merge loaded)
      ((∃ path ∈ namedPaths paths, ¬ workspace.Reaches place.tree path) →
        result.exit = 1 ∧ result.tree = place.tree) ∧
      ((∀ path ∈ namedPaths paths, workspace.Reaches place.tree path) →
        ∃ files changed, workspace.collect place.tree (namedPaths paths) = .ok files ∧
          (∀ file ∈ files, workspace.isIgnored file = false) ∧
          (changed.map Path.ofAddress).Sublist files ∧
          ReportsChanges workspace place.tree result changed) := by
  intro here result
  have hresult : result = fixFiles here request paths := by
    show run place args = _
    rw [run, hargs]
    simp only [perform, hinit, haction]
    rfl
  have habsolute : here.directory.isAbsolute = true := by
    show place.directory.normalize.isAbsolute = true
    rw [Path.normalize_of_absolute hdirectory, Path.isAbsolute_ofAddress]
  rw [hresult]
  refine ⟨fun failure hload => ?_, fun loaded hload => ⟨?_, fun hreaches => ?_⟩⟩
  · obtain ⟨output, hopen⟩ := openWorkspace_of_load_error paths hload
    rw [fixFiles, hopen]
    exact ⟨rfl, rfl⟩
  · rintro ⟨path, hpath, hnot⟩
    obtain ⟨output, -, hopen⟩ := openWorkspace_of_load paths hload
    cases hcollect : (Workspace.ofSettings here.directory (Settings.merge loaded)).collect here.tree
        (namedPaths paths) with
    | error failure =>
      simp only [hcollect] at hopen
      rw [fixFiles, hopen]
      exact ⟨rfl, rfl⟩
    | ok files => exact absurd (Workspace.collect_ok_iff.1 ⟨files, hcollect⟩ path hpath) hnot
  · obtain ⟨files, hfiles⟩ := Workspace.collect_ok_iff.2 hreaches
    obtain ⟨changed, hsub, hreports⟩ := fixFiles_reports habsolute hload hfiles
    exact ⟨files, changed, hfiles, Workspace.isIgnored_of_mem_collect hfiles, hsub, hreports⟩

/-- A directory with a file and the properties file that governs both. -/
def selfGovernedPlace : Place :=
  ⟨Workspace.selfGoverned, ⟨"/w"⟩, ⟨"/home"⟩⟩

/-- The request to mend a file and the directory that it stands in. -/
def fileAndDirectory : Request :=
  ⟨[], some (.fix [⟨"a"⟩, ⟨"."⟩])⟩

/-- A file that is named and stands in a directory that is named too is mentioned once. -/
theorem run_fix_selfGoverned :
    selfGovernedPlace.directory.isAbsolute = true ∧ readArguments ["fix", "a", "."] = .ok fileAndDirectory ∧
      fileAndDirectory.has .init = false ∧ fileAndDirectory.action? = some (.fix [⟨"a"⟩, ⟨"."⟩]) ∧
      (∃ changed, ReportsChanges
        (Workspace.ofSettings selfGovernedPlace.directory.normalize (Settings.merge []))
        selfGovernedPlace.tree (run selfGovernedPlace ["fix", "a", "."]) changed) ∧
      (run selfGovernedPlace ["fix", "a", "."]).output.text =
        "fixed a\nfixed .editorconfig\nFixed 2 files.\n" := by
  have hdirectory : selfGovernedPlace.directory.isAbsolute = true := by decide
  have hargs : readArguments ["fix", "a", "."] = .ok fileAndDirectory := by decide +kernel
  have hload : loadedSettings { selfGovernedPlace with directory := selfGovernedPlace.directory.normalize }
      fileAndDirectory = .ok [] := by
    decide +kernel
  have hreaches : ∀ path ∈ namedPaths [⟨"a"⟩, ⟨"."⟩],
      (Workspace.ofSettings selfGovernedPlace.directory.normalize (Settings.merge [])).Reaches
        selfGovernedPlace.tree path := by
    decide +kernel
  obtain ⟨-, hruns⟩ := run_fix hdirectory hargs rfl rfl
  obtain ⟨files, changed, -, -, -, hreports⟩ := (hruns [] hload).2 hreaches
  exact ⟨hdirectory, hargs, rfl, rfl, ⟨changed, hreports⟩, by decide +kernel⟩

/-- A file with a backslash in its name, beside the file that its label names. -/
def backslashed : Tree :=
  ([(["w"], .directory), (["w", ".editorconfig"], .file "root = true\n[*]\nend_of_line = lf\n".toUTF8),
    (["w", "a"], .directory), (["w", "a", "b"], .file "y\n".toUTF8),
    (["w", "a\\b"], .file "x\r\n".toUTF8)] : List (Address × Item)).foldl
    (fun tree entry => tree.set entry.1 entry.2) Tree.empty

/-- A file with a line feed in its name, beside the file that the second line of its record names. -/
def lineFed : Tree :=
  ([(["w"], .directory), (["w", ".editorconfig"], .file "root = true\n[*]\nend_of_line = lf\n".toUTF8),
    (["w", "a"], .file "y\n".toUTF8), (["w", "b\nfixed a"], .file "x\r\n".toUTF8)] :
    List (Address × Item)).foldl (fun tree entry => tree.set entry.1 entry.2) Tree.empty

/-- What is printed names a file that has not changed, for a backslash and for a line feed in a name. -/
theorem run_fix_misleads :
    (let result := run ⟨backslashed, ⟨"/w"⟩, ⟨"/home"⟩⟩ ["fix"]
     result.output.text = "fixed a/b\nFixed 1 files.\n" ∧
      result.tree.item? ["w", "a", "b"] = backslashed.item? ["w", "a", "b"] ∧
      result.tree.item? ["w", "a\\b"] = some (.file "x\n".toUTF8) ∧
      backslashed.item? ["w", "a\\b"] = some (.file "x\r\n".toUTF8)) ∧
    (let result := run ⟨lineFed, ⟨"/w"⟩, ⟨"/home"⟩⟩ ["fix"]
     result.output.text = "fixed b\nfixed a\nFixed 1 files.\n" ∧
      result.tree.item? ["w", "a"] = lineFed.item? ["w", "a"] ∧
      result.tree.item? ["w", "b\nfixed a"] = some (.file "x\n".toUTF8) ∧
      lineFed.item? ["w", "b\nfixed a"] = some (.file "x\r\n".toUTF8)) := by
  decide +kernel

end Command

end LineEndings

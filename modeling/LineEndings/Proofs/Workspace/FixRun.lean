/-
Mending all the files that paths stand for.

Files are mended one after another in the same tree, and among them are properties files, which say what
is expected of the others. What holds at every point of such a run is that the tree is the one before the
run with some of its files mended as the reports on that tree say (`MendedAt`). A properties file without
lone carriage returns says the same when it has been mended, so what is expected of a file does not change
(`MendedAt.expectation_eq`), and mending one file more keeps what holds (`MendedAt.fix`). Hence

* `fixAll_mends` — what a run does to each file is what checking it before the run said;
* `MendedAt.item?_eq` — in whatever order the files are mended, the same is left;
* `fixAll_settles` — and afterwards there is nothing left to mend;
* `Command.tree_fixFiles` — such a run is what the program does when it is asked to mend files.
-/
import LineEndings.Command.Run
import LineEndings.Proofs.Property.Precedence
import LineEndings.Proofs.Workspace.Collecting
import LineEndings.Proofs.Workspace.Mending

namespace LineEndings

namespace Workspace

variable {workspace : Workspace} {before tree : Tree} {done : List Path}

/-! ### Trees in the course of a run -/

/-- An item mended as the report on a tree says. -/
def mendedItem (workspace : Workspace) (before : Tree) (path : Path) : Item → Item
  | .file content => .file (workspace.mended before path content)
  | .directory => .directory

/-- Whether a tree is an earlier one with the files of a list mended, as the reports on the earlier tree
say. -/
def MendedAt (workspace : Workspace) (before : Tree) (done : List Path) (tree : Tree) : Prop :=
  ∀ address, tree.item? address = (before.item? address).map fun item =>
    if .ofAddress address ∈ done then workspace.mendedItem before (.ofAddress address) item else item

/-- Whether no properties file has a lone carriage return in its text. -/
def NoLoneCr (tree : Tree) : Prop :=
  ∀ directory content text, tree.item? (directory ++ [Property.fileName]) = some (.file content) →
    String.fromUTF8? content = some text → .cr ∉ breaks text.toList

theorem mendedAt_nil (workspace : Workspace) (tree : Tree) : MendedAt workspace tree [] tree := by
  intro address
  simp

theorem outline_mendedItem (workspace : Workspace) (before : Tree) (path : Path) (item : Item) :
    (workspace.mendedItem before path item).outline = item.outline := by
  cases item <;> rfl

theorem MendedAt.sameShape (h : MendedAt workspace before done tree) : tree.SameShape before := by
  intro address
  rw [h address, Option.map_map]
  congr 1
  funext item
  show (ite _ _ _ : Item).outline = _
  split
  · exact outline_mendedItem workspace before _ item
  · rfl

/-! ### What is expected -/

/-- A mended properties file is read as it was. -/
theorem MendedAt.read_text? (h : MendedAt workspace before done tree) (hcr : NoLoneCr before)
    {directory : Address} (hnames : ∀ s ∈ directory ++ [Property.fileName], Path.IsName s)
    (schema : Property.Schema) (label : String) :
    (tree.files.text? (.ofAddress (directory ++ [Property.fileName]))).map
        (Property.Source.read schema label) =
      (before.files.text? (.ofAddress (directory ++ [Property.fileName]))).map
        (Property.Source.read schema label) := by
  rw [Tree.text?_files, Tree.text?_files, Tree.find?, Tree.find?, h.sameShape.locate_eq]
  cases hlocate : before.locate (.ofAddress (directory ++ [Property.fileName])) with
  | error fault => rfl
  | ok address =>
    -- The path leads to one address in both trees, and there stands the file, mended or not.
    have haddress := (Tree.toAddress_of_locate hlocate).2
    rw [Path.toAddress_ofAddress hnames] at haddress
    subst haddress
    simp only
    rw [h]
    cases hitem : before.item? (directory ++ [Property.fileName]) with
    | none => rfl
    | some item =>
      rw [Option.map_some, Option.bind_some, Option.bind_some]
      split
      · cases item with
        | directory => rfl
        | file content => exact read_mended schema label (hcr directory content · hitem)
      · rfl

theorem isName_fileName : Path.IsName Property.fileName := by
  decide

theorem sourceIn?_resolver (tree : Tree) (address directory : Address) :
    (resolver tree).sourceIn? address directory =
      ((tree.files.text? (.ofAddress (directory ++ [Property.fileName]))).map
        (Property.Source.read .lineEndings
          (Property.spelled (address.drop directory.length)))).map
        (Property.LoadedSource.mk (.ofAddress (directory ++ [Property.fileName]))) := by
  rw [Option.map_map]
  rfl

/-- What is expected of a file does not change when others, or it, are mended. -/
theorem MendedAt.expectation_eq (h : MendedAt workspace before done tree) (hcr : NoLoneCr before)
    (hroot : workspace.root.isAbsolute = true) (path : Path) :
    workspace.expectation tree path = workspace.expectation before path := by
  have hkept : (resolver tree).kept (workspace.absolute path).toAddress =
      (resolver before).kept (workspace.absolute path).toAddress := by
    refine Property.Resolver.kept_congr fun directory hdirectory => ?_
    have hnames : ∀ s ∈ directory ++ [Property.fileName], Path.IsName s :=
      Path.isName_snoc
        (Property.isName_of_mem_above (fun s => Path.isName_of_mem_toAddress) hdirectory) isName_fileName
    rw [sourceIn?_resolver, sourceIn?_resolver, h.read_text? hcr hnames]
  have hresolve : (resolver tree).resolve (workspace.absolute path) =
      (resolver before).resolve (workspace.absolute path) :=
    Property.Resolver.resolve_eq_of_kept (isAbsolute_absolute hroot path) isName_fileName isName_fileName
      hkept
  have hproperties : workspace.properties tree path = workspace.properties before path := by
    rw [properties, properties, hresolve]
  unfold expectation
  rw [hproperties]

/-! ### Step by step -/

/-- Mending one file more. -/
theorem MendedAt.fix (h : MendedAt workspace before done tree) (hcr : NoLoneCr before)
    (hroot : workspace.root.isAbsolute = true) {path : Path} (hfile : SpellsFile before path)
    (hnew : path ∉ done) :
    ∃ report? after, workspace.check before path = .ok report? ∧
      workspace.fix tree path = .ok (.ofReport report?, after) ∧
      MendedAt workspace before (path :: done) after := by
  obtain ⟨address, content, rfl, hitem⟩ := hfile
  have hexpected := h.expectation_eq hcr hroot (.ofAddress address)
  have htree : tree.item? address = some (.file content) := by
    rw [h address, hitem, Option.map_some, if_neg hnew]
  obtain ⟨after, hfix, hafter⟩ := fix_of_locate workspace (Tree.locate_ofAddress htree) htree
  rw [reportOn?_congr hexpected] at hfix
  refine ⟨_, after, check_ofAddress hitem, hfix, fun a => ?_⟩
  rw [hafter a]
  by_cases ha : a = address
  · subst ha
    rw [if_pos rfl, hitem, Option.map_some, if_pos (by simp), mended_congr hexpected]
    rfl
  · -- Another file has another path, so nothing more is done to it.
    rw [if_neg ha, h a]
    cases hbefore : before.item? a with
    | none => rfl
    | some item =>
      have hne : Path.ofAddress a ≠ .ofAddress address := fun heq =>
        ha (Path.ofAddress_injective (Tree.isName_of_item? hbefore) (Tree.isName_of_item? hitem) heq)
      simp [hne]

/-- What a run does, and what holds when it is over. -/
theorem MendedAt.fixAll (hcr : NoLoneCr before) (hroot : workspace.root.isAbsolute = true)
    {order : List Path} (h : MendedAt workspace before done tree)
    (hfiles : ∀ path ∈ order, SpellsFile before path) (hnodup : order.Nodup)
    (hnew : ∀ path ∈ order, path ∉ done) :
    (workspace.fixAll tree order).1 =
        order.map (fun path => (workspace.check before path).map Outcome.ofReport) ∧
      MendedAt workspace before (order.reverse ++ done) (workspace.fixAll tree order).2 := by
  induction order generalizing tree done with
  | nil => exact ⟨rfl, h⟩
  | cons path order ih =>
    obtain ⟨hnot, hrest⟩ := List.nodup_cons.1 hnodup
    obtain ⟨report?, after, hcheck, hfix, hafter⟩ :=
      h.fix hcr hroot (hfiles path (by simp)) (hnew path (by simp))
    -- The rest of the order starts from a tree with this file done too, and does not name it again.
    obtain ⟨hresults, hlast⟩ := ih hafter (fun p hp => hfiles p (List.mem_cons_of_mem _ hp)) hrest
      fun p hp hdone => by
        rcases List.mem_cons.1 hdone with rfl | hdone
        · exact hnot hp
        · exact hnew p (List.mem_cons_of_mem _ hp) hdone
    rw [Workspace.fixAll, hfix]
    simp only
    refine ⟨?_, ?_⟩
    · rw [List.map_cons, hcheck, hresults]
      rfl
    · rw [List.reverse_cons, List.append_assoc]
      exact hlast

/-! ### Whole runs -/

section

variable {paths files order : List Path}

/-- A run from the start. -/
theorem fixAll_mends (hroot : workspace.root.isAbsolute = true) (hcr : NoLoneCr before)
    (hfiles : workspace.collect before paths = .ok files) (horder : order.Perm files) :
    (workspace.fixAll before order).1 =
        order.map (fun path => (workspace.check before path).map Outcome.ofReport) ∧
      MendedAt workspace before order.reverse (workspace.fixAll before order).2 := by
  have hmem : ∀ path ∈ order, SpellsFile before path :=
    fun path hpath => mem_collect hroot hfiles path (horder.mem_iff.1 hpath)
  have hrun := (mendedAt_nil workspace before).fixAll hcr hroot hmem
    (horder.nodup_iff.2 (nodup_collect hfiles)) fun _ _ => List.not_mem_nil
  rwa [List.append_nil] at hrun

/-- What is left depends on which files have been mended, and not on their order. -/
theorem MendedAt.item?_eq {done other : List Path} {tree after : Tree}
    (h : MendedAt workspace before done tree) (h' : MendedAt workspace before other after)
    (hsame : ∀ path, path ∈ done ↔ path ∈ other) (address : Address) :
    tree.item? address = after.item? address := by
  rw [h address, h' address]
  simp only [hsame]

/-- What has been mended is clean. -/
theorem MendedAt.check_isClean (h : MendedAt workspace before done tree) (hcr : NoLoneCr before)
    (hroot : workspace.root.isAbsolute = true) {path : Path} (hfile : SpellsFile before path)
    (hdone : path ∈ done) :
    ∃ report?, workspace.check tree path = .ok report? ∧
      ∀ report ∈ report?, report.isClean = true := by
  obtain ⟨address, content, rfl, hitem⟩ := hfile
  have hexpected := h.expectation_eq hcr hroot (.ofAddress address)
  have htree : tree.item? address =
      some (.file (workspace.mended before (.ofAddress address) content)) := by
    rw [h address, hitem, Option.map_some, if_pos hdone]
    rfl
  refine ⟨_, check_ofAddress htree, ?_⟩
  rw [reportOn?_congr hexpected]
  exact isClean_reportOn?_mended workspace before _ content

/-- A run over files that there is nothing to mend in. -/
theorem fixAll_of_isClean
    (h : ∀ path ∈ order, ∃ report?, workspace.check tree path = .ok report? ∧
      ∀ report ∈ report?, report.isClean = true) :
    (workspace.fixAll tree order).2 = tree ∧
      ∀ result ∈ (workspace.fixAll tree order).1, result = .ok .unchanged ∨ result = .ok .skipped := by
  induction order with
  | nil => exact ⟨rfl, fun _ hresult => absurd hresult List.not_mem_nil⟩
  | cons path order ih =>
    obtain ⟨report?, hcheck, hclean⟩ := h path (by simp)
    obtain ⟨htree, hresults⟩ := ih fun p hp => h p (List.mem_cons_of_mem _ hp)
    rw [fixAll, fix_of_isClean hcheck hclean]
    simp only
    refine ⟨htree, fun result hresult => ?_⟩
    rcases List.mem_cons.1 hresult with rfl | hresult
    · cases report? with
      | none => exact Or.inr rfl
      | some report => exact Or.inl (by rw [Outcome.ofReport, hclean report rfl, if_pos rfl])
    · exact hresults result hresult

/-- Mending the files that paths stand for, in any order. Each of them can be checked before the run, and
the run does to it what the report says; all orders leave the same; and afterwards the paths stand for the
same files, there is nothing to mend in any of them, and mending any of them again writes nothing. -/
theorem fixAll_settles (hroot : workspace.root.isAbsolute = true) (hcr : NoLoneCr before)
    (hfiles : workspace.collect before paths = .ok files) :
    (∀ path ∈ files, ∃ report?, workspace.check before path = .ok report?) ∧
      (∀ order : List Path, order.Perm files →
        (workspace.fixAll before order).1 =
          order.map fun path => (workspace.check before path).map Outcome.ofReport) ∧
      (∀ order order' : List Path, order.Perm files → order'.Perm files → ∀ address,
        (workspace.fixAll before order).2.item? address =
          (workspace.fixAll before order').2.item? address) ∧
      ∀ order : List Path, order.Perm files →
        let after := (workspace.fixAll before order).2
        workspace.collect after paths = .ok files ∧
          (∀ path ∈ files, ∃ report?, workspace.check after path = .ok report? ∧
            ∀ report ∈ report?, report.isClean = true) ∧
          ∀ again : List Path, (∀ path ∈ again, path ∈ files) →
            (workspace.fixAll after again).2 = after ∧
              ∀ result ∈ (workspace.fixAll after again).1,
                result = .ok .unchanged ∨ result = .ok .skipped := by
  refine ⟨?_, ?_, ?_, ?_⟩
  · intro path hpath
    obtain ⟨address, content, rfl, hitem⟩ := mem_collect hroot hfiles path hpath
    exact ⟨_, check_ofAddress hitem⟩
  · intro order horder
    exact (fixAll_mends hroot hcr hfiles horder).1
  · intro order order' horder horder' address
    refine (fixAll_mends hroot hcr hfiles horder).2.item?_eq
      (fixAll_mends hroot hcr hfiles horder').2 (fun path => ?_) address
    rw [List.mem_reverse, List.mem_reverse, horder.mem_iff, horder'.mem_iff]
  · intro order horder after
    have hmended : MendedAt workspace before order.reverse after :=
      (fixAll_mends hroot hcr hfiles horder).2
    have hclean : ∀ path ∈ files, ∃ report?, workspace.check after path = .ok report? ∧
        ∀ report ∈ report?, report.isClean = true := by
      intro path hpath
      refine hmended.check_isClean hcr hroot (mem_collect hroot hfiles path hpath) ?_
      rw [List.mem_reverse, horder.mem_iff]
      exact hpath
    refine ⟨?_, hclean, fun again hagain => ?_⟩
    · rw [collect_congr hmended.sameShape, hfiles]
    · exact fixAll_of_isClean fun path hpath => hclean path (hagain path hpath)

end

/-- A properties file with `\r\n`, which asks `\n` of itself and of the file beside it. -/
def selfGoverned : Tree :=
  ((Tree.empty.set ["w"] .directory).set ["w", ".editorconfig"]
    (.file "[*]\r\nend_of_line = lf".toUTF8)).set ["w", "a"] (.file "b\r\n".toUTF8)

theorem noLoneCr_selfGoverned : NoLoneCr selfGoverned := by
  intro directory content text hitem htext
  have hitems : selfGoverned.items.toList =
      [(["w"], .directory), (["w", ".editorconfig"], .file "[*]\r\nend_of_line = lf".toUTF8),
        (["w", "a"], .file "b\r\n".toUTF8)] := by
    decide +kernel
  rw [Tree.item?_of_ne_nil (by simp), ← Std.TreeMap.mem_toList_iff_getElem?_eq_some, hitems] at hitem
  rcases List.mem_cons.1 hitem with heq | hitem
  · cases (Prod.mk.inj heq).2
  · rcases List.mem_cons.1 hitem with heq | hitem
    · obtain rfl := Item.file.inj (Prod.mk.inj heq).2
      rw [fromUTF8?_toUTF8] at htext
      obtain rfl := Option.some.inj htext
      decide
    · obtain rfl := Item.file.inj (Prod.mk.inj (List.mem_singleton.1 hitem)).2
      rw [fromUTF8?_toUTF8] at htext
      obtain rfl := Option.some.inj htext
      decide

/-- Both files change, although the properties file is the last to. -/
theorem fixAll_selfGoverned :
    (ofSettings ⟨"/w"⟩ (Settings.merge [])).root.isAbsolute = true ∧ NoLoneCr selfGoverned ∧
      (ofSettings ⟨"/w"⟩ (Settings.merge [])).collect selfGoverned [⟨"."⟩] =
        .ok [⟨"/w/.editorconfig"⟩, ⟨"/w/a"⟩] ∧
      ((ofSettings ⟨"/w"⟩ (Settings.merge [])).fixAll selfGoverned
        [⟨"/w/a"⟩, ⟨"/w/.editorconfig"⟩]).1 = [.ok (.changed .lf), .ok (.changed .lf)] := by
  have hroot : (ofSettings ⟨"/w"⟩ (Settings.merge [])).root.isAbsolute = true := by decide
  have hfiles : (ofSettings ⟨"/w"⟩ (Settings.merge [])).collect selfGoverned [⟨"."⟩] =
      .ok [⟨"/w/.editorconfig"⟩, ⟨"/w/a"⟩] := by
    decide +kernel
  obtain ⟨-, hresults, -, -⟩ := fixAll_settles hroot noLoneCr_selfGoverned hfiles
  refine ⟨hroot, noLoneCr_selfGoverned, hfiles, ?_⟩
  rw [hresults [⟨"/w/a"⟩, ⟨"/w/.editorconfig"⟩] (List.Perm.swap _ _ _)]
  decide +kernel

end Workspace

namespace Command

/-! ### The program's runs -/

/-- The program mends files one after another. -/
theorem Repair.tree_foldl_fix (workspace : Workspace) (request : Request) (repair : Repair)
    (paths : List Path) :
    (paths.foldl (Repair.fix workspace request) repair).tree =
      (workspace.fixAll repair.tree paths).2 := by
  induction paths generalizing repair with
  | nil => rfl
  | cons path paths ih =>
    rw [List.foldl_cons, ih, Workspace.fixAll, Repair.fix]
    simp only
    cases hfix : workspace.fix repair.tree path with
    | error failure => rfl
    | ok result =>
      obtain ⟨outcome, after⟩ := result
      cases outcome with
      | changed target => rfl
      | unchanged =>
        obtain rfl := Workspace.eq_of_fix hfix (by simp)
        rfl
      | skipped =>
        obtain rfl := Workspace.eq_of_fix hfix (by simp)
        rfl

/-- What the program leaves when it is asked to mend files is what a run over the files leaves that it
has collected. -/
theorem tree_fixFiles {place : Place} {request : Request} {paths files : List Path}
    {workspace : Workspace} {output : Output}
    (h : openWorkspace place request paths = .ok (workspace, files, output)) :
    (fixFiles place request paths).tree = (workspace.fixAll place.tree files).2 := by
  rw [fixFiles, h]
  exact Repair.tree_foldl_fix workspace request ⟨0, 0, output, place.tree⟩ files

end Command

end LineEndings

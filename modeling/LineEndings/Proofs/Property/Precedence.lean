/-
The cascade: the nearest file that assigns a property wins.

For a target with an address, the directories above it are the proper beginnings of the address. Their
properties files that can be read are kept, nearest first and up to the first with the root mark
(`Resolver.kept`), and a resolution says no more than they do:

* `load_eq_kept` — they are what is loaded, each read for the names that lead from its directory to the
  target;
* `resolve_congr` — no other directory than those down from the root mark (`Resolver.searched`) is heard,
  and of their files only the text, where there is one;
* `resolve_gives_nearest` — of each property a resolution has the assignment of the nearest kept file
  that has one.
-/
import LineEndings.Property.Cascade
import LineEndings.Proofs.Path.Address
import LineEndings.Proofs.Scan

namespace LineEndings

namespace Property

/-- The addresses above an address, nearest first. -/
def above (address : Address) : List Address :=
  address.inits.dropLast.reverse

/-- The text of names with a slash between neighbours. -/
def spelled (names : Address) : String :=
  String.ofList (Text.joined '/' (names.map String.toList))

theorem nodup_above (address : Address) : (above address).Nodup :=
  List.nodup_reverse.2 ((List.dropLast_sublist _).nodup (Path.nodup_inits address))

theorem above_eq (address : Address) (h : address ≠ []) :
    above address = address.dropLast.inits.reverse := by
  obtain ⟨front, s, rfl⟩ := (List.eq_nil_or_concat address).resolve_left h
  simp [above, List.inits_append]

/-- What is above an address is a beginning of it, with names to follow. -/
theorem exists_of_mem_above {address directory : Address} (h : directory ∈ above address) :
    ∃ names, names ≠ [] ∧ address = directory ++ names := by
  have hne : address ≠ [] := by
    rintro rfl
    cases h
  rw [above_eq address hne, List.mem_reverse, List.mem_inits] at h
  obtain ⟨names, hnames⟩ := h
  refine ⟨names ++ [address.getLast hne], by simp, ?_⟩
  rw [← List.append_assoc, hnames, List.dropLast_concat_getLast]

theorem isName_of_mem_above {address directory : Address} (haddress : ∀ s ∈ address, Path.IsName s)
    (h : directory ∈ above address) : ∀ s ∈ directory, Path.IsName s := by
  obtain ⟨names, -, rfl⟩ := exists_of_mem_above h
  exact fun s hs => haddress s (List.mem_append_left _ hs)

namespace Resolver

/-- The properties file of a directory. -/
def fileIn (resolver : Resolver) (directory : Address) : Path :=
  .ofAddress (directory ++ [resolver.fileName])

/-- The properties file of a directory and what it says about an address below, if it can be read. -/
def sourceIn? (resolver : Resolver) (address directory : Address) : Option LoadedSource :=
  (resolver.files.text? (resolver.fileIn directory)).map fun contents =>
    ⟨resolver.fileIn directory,
      .read resolver.schema (spelled (address.drop directory.length)) contents⟩

/-- The properties files above an address that can be read, nearest first, up to the first with the root
mark. -/
def kept (resolver : Resolver) (address : Address) : List LoadedSource :=
  throughFirst (·.source.root) ((above address).filterMap (resolver.sourceIn? address))

/-- The directories above an address, nearest first, up to the first whose properties file has the root
mark. -/
def searched (resolver : Resolver) (address : Address) : List Address :=
  throughFirst (fun directory => (resolver.sourceIn? address directory).any (·.source.root)) (above address)

variable {resolver : Resolver} {address : Address}

theorem kept_eq_filterMap_searched (resolver : Resolver) (address : Address) :
    resolver.kept address = (resolver.searched address).filterMap (resolver.sourceIn? address) :=
  throughFirst_filterMap _ _ _

/-- What is kept depends on what each directory gives. -/
theorem kept_congr {other : Resolver}
    (h : ∀ directory ∈ above address,
      other.sourceIn? address directory = resolver.sourceIn? address directory) :
    other.kept address = resolver.kept address := by
  rw [kept, kept, List.filterMap_congr h]

theorem searched_sublist (resolver : Resolver) (address : Address) :
    (resolver.searched address).Sublist (above address) :=
  throughFirst_sublist _

/-! ### Loading -/

theorem label?_names {names : Address} (h : names ≠ []) :
    Path.label? (names.map .name) = some (spelled names) := by
  cases names with
  | nil => exact absurd rfl h
  | cons s names => simp [Path.label?, spelled, List.filterMap_map]

/-- The target as seen from a directory above it. -/
theorem labelFrom?_fileIn {directory names : Address} (hname : Path.IsName resolver.fileName)
    (h : ∀ s ∈ directory ++ names, Path.IsName s) (hne : names ≠ []) :
    labelFrom? (resolver.fileIn directory) (.ofAddress (directory ++ names)) = some (spelled names) := by
  have hfile : ∀ s ∈ directory ++ [resolver.fileName], Path.IsName s :=
    Path.isName_snoc (fun s hs => h s (List.mem_append_left _ hs)) hname
  rw [labelFrom?, fileIn, Path.parent?_ofAddress hfile, if_neg (by simp), List.dropLast_concat,
    Option.bind_some, Path.after?_ofAddress h, Option.bind_some, label?_names hne]

/-- Loading the files of directories above the target is reading those that can be read, up to the root
mark. -/
theorem loadAll_filesIn (hname : Path.IsName resolver.fileName)
    (haddress : ∀ s ∈ address, Path.IsName s) {directories : List Address}
    (h : ∀ directory ∈ directories, ∃ names, names ≠ [] ∧ address = directory ++ names) :
    resolver.loadAll (.ofAddress address)
        ((directories.map resolver.fileIn).filter resolver.files.isFile) =
      throughFirst (·.source.root) (directories.filterMap (resolver.sourceIn? address)) := by
  induction directories with
  | nil => rfl
  | cons directory directories ih =>
    have hrest := ih fun d hd => h d (List.mem_cons_of_mem _ hd)
    obtain ⟨names, hne, rfl⟩ := h directory (by simp)
    rw [List.map_cons]
    cases hfile : resolver.files.isFile (resolver.fileIn directory) with
    | false =>
      have hnone : resolver.sourceIn? (directory ++ names) directory = none := by
        rw [sourceIn?, Files.text?, hfile]
        rfl
      rw [List.filter_cons_of_neg (by rw [hfile]; exact Bool.false_ne_true), hrest,
        List.filterMap_cons_none hnone]
    | true =>
      rw [List.filter_cons_of_pos hfile, loadAll, labelFrom?_fileIn hname haddress hne]
      cases hread : resolver.files.read (resolver.fileIn directory) with
      | error fault =>
        have hnone : resolver.sourceIn? (directory ++ names) directory = none := by
          rw [sourceIn?, Files.text?, hfile, hread]
          rfl
        rw [List.filterMap_cons_none hnone]
        exact hrest
      | ok contents =>
        have hsome : resolver.sourceIn? (directory ++ names) directory =
            some ⟨resolver.fileIn directory, .read resolver.schema (spelled names) contents⟩ := by
          rw [sourceIn?, Files.text?, hfile, hread, List.drop_left]
          rfl
        rw [List.filterMap_cons_some hsome, throughFirst_cons, ← hrest]

theorem discover_eq (resolver : Resolver) {target : Path} (htarget : target.isAbsolute = true)
    (hname : Path.IsName resolver.fileName) :
    resolver.discover target =
      ((above target.toAddress).map resolver.fileIn).filter resolver.files.isFile := by
  have haddress : ∀ s ∈ target.toAddress, Path.IsName s := fun s => Path.isName_of_mem_toAddress
  generalize htop : target.toAddress = address at haddress
  unfold discover
  rw [Path.normalize_of_absolute htarget, htop, Path.parent?_ofAddress haddress]
  by_cases hne : address = []
  · subst hne
    rfl
  · have hdir : ∀ s ∈ address.dropLast, Path.IsName s :=
      fun s hs => haddress s (List.mem_of_mem_dropLast hs)
    have hfiles : (Path.ancestors (.ofAddress address.dropLast)).map (·.join ⟨resolver.fileName⟩) =
        (above address).map resolver.fileIn := by
      rw [above_eq address hne, Path.ancestors_ofAddress hdir, List.map_map]
      refine List.map_congr_left fun directory hmem => ?_
      rw [List.mem_reverse, List.mem_inits] at hmem
      exact Path.join_ofAddress (fun s hs => hdir s (hmem.subset hs)) hname
    rw [if_neg hne, ← hfiles]

theorem load_eq_kept (resolver : Resolver) {target : Path} (htarget : target.isAbsolute = true)
    (hname : Path.IsName resolver.fileName) :
    resolver.load target = resolver.kept target.toAddress := by
  rw [load, discover_eq resolver htarget hname, Path.normalize_of_absolute htarget]
  exact loadAll_filesIn hname (fun s => Path.isName_of_mem_toAddress) fun directory =>
    exists_of_mem_above

/-! ### Resolving -/

/-- Uniting from the far end is asking from the near one. -/
theorem getElem?_properties_ofSources (near : List LoadedSource) (key : String) :
    (Resolution.ofSources near).properties[key]? = near.findSome? (·.properties[key]?) := by
  show (near.reverse.foldl (· ∪ ·.properties) (∅ : Std.TreeMap String Resolved))[key]? = _
  induction near with
  | nil => rw [List.reverse_nil, List.foldl_nil, Std.TreeMap.getElem?_emptyc, List.findSome?_nil]
  | cons loaded near ih =>
    rw [List.reverse_cons, List.foldl_append, List.foldl_cons, List.foldl_nil,
      Std.TreeMap.getElem?_union, ih, List.findSome?_cons]
    cases loaded.properties[key]? with
    | none => rfl
    | some property => rfl

theorem sources_ofSources (near : List LoadedSource) :
    (Resolution.ofSources near).sources = (near.map (·.path)).reverse := by
  show near.reverse.map (·.path) = _
  rw [List.map_reverse]

/-- No file is kept twice. -/
theorem nodup_kept (hname : Path.IsName resolver.fileName) (h : ∀ s ∈ address, Path.IsName s) :
    ((resolver.kept address).map (·.path)).Nodup := by
  have hsearched : (resolver.searched address).Nodup :=
    (resolver.searched_sublist address).nodup (nodup_above address)
  have hnames : ∀ directory ∈ resolver.searched address, ∀ s ∈ directory ++ [resolver.fileName],
      Path.IsName s := by
    intro directory hdir
    have habove := (resolver.searched_sublist address).subset hdir
    exact Path.isName_snoc (isName_of_mem_above h habove) hname
  have hpath : ∀ directory loaded, resolver.sourceIn? address directory = some loaded →
      loaded.path = resolver.fileIn directory := by
    intro directory loaded hloaded
    obtain ⟨contents, -, rfl⟩ := Option.map_eq_some_iff.1 hloaded
    rfl
  rw [kept_eq_filterMap_searched, List.Nodup, List.pairwise_map, List.pairwise_filterMap]
  refine hsearched.imp_of_mem ?_
  intro d₁ d₂ h₁ h₂ hne loaded₁ hl₁ loaded₂ hl₂ heq
  -- Files in two directories with the same path would be in the same directory.
  rw [hpath d₁ loaded₁ hl₁, hpath d₂ loaded₂ hl₂] at heq
  have hsame := Path.ofAddress_injective (hnames d₁ h₁) (hnames d₂ h₂) heq
  exact hne (List.append_inj_left' hsame rfl)

/-- What a resolver finds depends on what the files it keeps say, and on nothing else. -/
theorem resolve_eq_of_kept {other : Resolver} {target : Path} (htarget : target.isAbsolute = true)
    (hname : Path.IsName resolver.fileName) (hother : Path.IsName other.fileName)
    (h : other.kept target.toAddress = resolver.kept target.toAddress) :
    other.resolve target = resolver.resolve target := by
  rw [resolve, resolve, load_eq_kept other htarget hother, load_eq_kept resolver htarget hname, h]

/-- Files that read alike where a resolver looks give it the same properties. -/
theorem resolve_congr {files : Files} {target : Path} (htarget : target.isAbsolute = true)
    (hname : Path.IsName resolver.fileName)
    (h : ∀ directory ∈ resolver.searched target.toAddress,
      files.text? (resolver.fileIn directory) = resolver.files.text? (resolver.fileIn directory)) :
    Resolver.resolve { resolver with files } target = resolver.resolve target := by
  have hsource : ∀ directory ∈ resolver.searched target.toAddress,
      sourceIn? resolver target.toAddress directory =
        sourceIn? { resolver with files } target.toAddress directory := by
    intro directory hdir
    exact congrArg (Option.map _) (h directory hdir).symm
  have hsearched : searched { resolver with files } target.toAddress =
      resolver.searched target.toAddress := by
    refine (throughFirst_congr fun directory hdir => ?_).symm
    rw [hsource directory hdir]
  refine resolve_eq_of_kept htarget hname hname ?_
  rw [kept_eq_filterMap_searched, kept_eq_filterMap_searched, hsearched]
  exact List.filterMap_congr fun directory hdir => (hsource directory hdir).symm

/-- The properties of a target. The sources are the kept files farthest first, none of them twice; a
property has the assignment of the nearest kept file that has one, and none if no kept file has; and
files that read alike down from the root mark give the same. -/
theorem resolve_gives_nearest {resolver : Resolver} {target : Path}
    (htarget : target.isAbsolute = true) (hname : Path.IsName resolver.fileName) :
    (resolver.resolve target).sources = ((resolver.kept target.toAddress).map (·.path)).reverse ∧
      (resolver.resolve target).sources.Nodup ∧
      (∀ key : String, (resolver.resolve target).properties[key]? =
        (resolver.kept target.toAddress).findSome? fun loaded =>
          (loaded.source.assignments[key]?).map fun assignment =>
            ⟨assignment.value, loaded.path, assignment.header?, assignment.line⟩) ∧
      ∀ files : Files,
        (∀ directory ∈ resolver.searched target.toAddress,
          files.text? (resolver.fileIn directory) = resolver.files.text? (resolver.fileIn directory)) →
        Resolver.resolve { resolver with files } target = resolver.resolve target := by
  have hkept : resolver.resolve target = .ofSources (resolver.kept target.toAddress) := by
    rw [resolve, load_eq_kept resolver htarget hname]
  have hsources : (resolver.resolve target).sources =
      ((resolver.kept target.toAddress).map (·.path)).reverse := by
    rw [hkept, sources_ofSources]
  refine ⟨hsources, ?_, ?_, fun files hfiles => resolve_congr htarget hname hfiles⟩
  · rw [hsources, List.nodup_reverse]
    exact nodup_kept hname fun s => Path.isName_of_mem_toAddress
  · intro key
    rw [hkept, getElem?_properties_ofSources]
    simp only [LoadedSource.properties, Std.TreeMap.getElem?_map]

/-- A properties file at the top, and one that cannot be read in a directory below. -/
def withUnreadable : Resolver where
  files := .ofList
    [(⟨"/.editorconfig"⟩, some "root = true\nend_of_line = lf"), (⟨"/w/.editorconfig"⟩, none)]
  schema := .lineEndings

theorem resolve_passes_over_unreadable :
    (Path.mk "/w/a.txt").isAbsolute = true ∧ Path.IsName withUnreadable.fileName ∧
      (withUnreadable.resolve ⟨"/w/a.txt"⟩).sources = [⟨"/.editorconfig"⟩] ∧
      (withUnreadable.resolve ⟨"/w/a.txt"⟩).properties["end_of_line"]? =
        some ⟨"lf", ⟨"/.editorconfig"⟩, none, 2⟩ := by
  have habsolute : (Path.mk "/w/a.txt").isAbsolute = true := by decide
  have hname : Path.IsName withUnreadable.fileName := by decide
  obtain ⟨hsources, -, hproperties, -⟩ := resolve_gives_nearest habsolute hname
  refine ⟨habsolute, hname, ?_, ?_⟩
  · rw [hsources]
    decide +kernel
  · rw [hproperties]
    decide +kernel

end Resolver

end Property

end LineEndings

/-
A search that leaves out the user's own settings file.

Without a home directory no file is read after those found. But the home directory may be one of the
directories that are searched, and then the file there is read as any other. It is left out, whatever it holds,
for no other reason than that the search does not reach it (`leavesOut_iff`): the home directory does
not lie above, or a file that is nearer has the root mark or cannot be read.
-/
import LineEndings.Proofs.Settings.Discovering
import LineEndings.Settings.Merge

namespace LineEndings.Settings

variable {files : Files} {start path : Path} {standing : Standing}

/-! ### Searches that end at a file -/

theorem discover_none (files : Files) (start : Path) :
    discover files start none = ((reached files start).filterMap (standing? files)).mapM Standing.load := by
  rw [discover_eq, added, Option.bind_none, Option.filter_none, Option.toList_none, List.append_nil,
    mapM_load_found]

/-- A search that reaches a file with the root mark gives something. -/
theorem exists_discover_eq_ok (hreached : path ∈ reached files start)
    (hfile : standing? files path = some standing) (hroot : standing.isRoot = true) :
    ∃ loaded, discover files start none = .ok loaded := by
  obtain ⟨front, back, hpaths, hfront⟩ := mem_throughFirst_iff.1 hreached
  have hends : (standing? files path).any Standing.ends = true := by
    rw [hfile]
    exact Standing.ends_of_isRoot hroot
  have hcut : reached files start = front ++ [path] := by
    rw [reached, hpaths, throughFirst_append hfront, throughFirst_cons, hends, if_pos rfl]
  rw [discover_none, hcut]
  refine exists_mapM_eq_ok fun near hnear => Standing.exists_load_eq_ok ?_
  obtain ⟨place, hplace, hnear⟩ := List.mem_filterMap.1 hnear
  rcases List.mem_append.1 hplace with hplace | hplace
  · have hopen := hfront place hplace
    rw [hnear] at hopen
    exact Or.inl hopen
  · rw [List.mem_singleton.1 hplace, hfile] at hnear
    exact Or.inr (Option.some.inj hnear ▸ hroot)

/-- A search that reaches a broken file fails. -/
theorem discover_ne_ok (hreached : path ∈ reached files start)
    (hfile : standing? files path = some standing) {failure : Failure}
    (hbroken : standing.reading = .error failure) (loaded : List LoadedSettings) :
    discover files start none ≠ .ok loaded := by
  rw [discover_none]
  intro h
  obtain ⟨loaded, hload⟩ := exists_ok_of_mapM_ok h standing (List.mem_filterMap.2 ⟨path, hreached, hfile⟩)
  rw [Standing.load_eq_error_iff.2 hbroken] at hload
  cases hload

/-! ### Trees that differ in the user's own file -/

section

variable {tree other : Tree} {address : Address} {home : Path}

/-- A search that looks nowhere at the address of a file is not changed by it. -/
theorem discover_eq_of_alikeBut (h : tree.AlikeBut address other)
    (hreached : ∀ path ∈ reached tree.files start, tree.locate path ≠ .ok address) :
    discover other.files start none = discover tree.files start none :=
  discover_congr (fun path hpath => standing?_congr (h.find?_eq (hreached path hpath))) (by simp)

/-- A file with a text is read as a settings file with that text. -/
theorem standing?_of_find? {text : String} (h : tree.find? path = some (.file text.toUTF8)) :
    standing? tree.files path = some ⟨path, SettingsFile.read path text⟩ := by
  have hfile : tree.files.isFile path = true := Tree.isFile_iff.2 ⟨_, h⟩
  have hread : tree.files.read path = .ok text := Tree.readText_of_find? h
  rw [standing?_of_isFile hfile, readFile, hread]

/-- Where the search looks at a file of one tree, it looks at a file in its place in the other. -/
theorem exists_mem_reached (h : tree.AlikeBut address other)
    (hreached : ∃ path ∈ reached tree.files start, tree.locate path = .ok address) :
    ∃ path ∈ reached other.files start, other.locate path = .ok address := by
  by_contra hnot
  have hout : ∀ path ∈ reached other.files start, other.locate path ≠ .ok address :=
    fun path hpath hlocate => hnot ⟨path, hpath, hlocate⟩
  have hsame : reached tree.files start = reached other.files start :=
    reached_congr fun path hpath => standing?_congr (h.symm.find?_eq (hout path hpath))
  obtain ⟨path, hpath, hlocate⟩ := hreached
  exact hnot ⟨path, hsame ▸ hpath, h.locate_eq_ok hlocate⟩

/-- A text that is no document. -/
def brokenText : String := "="

/-- A text with the root mark and nothing else. -/
def markedText : String := "root = true"

theorem read_brokenText (path : Path) : SettingsFile.read path brokenText = .error (.settingsParse path) := by
  have hread : (Toml.document? brokenText).bind SettingsFile.ofDocument? = none := by decide +kernel
  rw [SettingsFile.read, hread]

theorem read_markedText (path : Path) :
    SettingsFile.read path markedText = .ok ⟨true, none, none, none, [], []⟩ := by
  have hread : (Toml.document? markedText).bind SettingsFile.ofDocument? =
      some ⟨true, none, none, none, [], []⟩ := by decide +kernel
  rw [SettingsFile.read, hread]
  rfl

/-- A search that looks at a file is changed by it: with the root mark in it the search ends there, and with
no document in it the search fails. -/
theorem exists_discover_ne {content : ByteArray} (hitem : tree.item? address = some (.file content))
    (hreached : ∃ path ∈ reached tree.files start, tree.locate path = .ok address) :
    ∃ other, tree.AlikeBut address other ∧
      discover other.files start none ≠ discover tree.files start none := by
  have hset : ∀ text : String, ∃ path ∈ reached (tree.set address (.file text.toUTF8)).files start,
      standing? (tree.set address (.file text.toUTF8)).files path =
        some ⟨path, SettingsFile.read path text⟩ := by
    intro text
    obtain ⟨path, hpath, hlocate⟩ := exists_mem_reached (Tree.alikeBut_set hitem text.toUTF8) hreached
    refine ⟨path, hpath, standing?_of_find? ?_⟩
    rw [Tree.find?_of_locate hlocate, Tree.item?_set_self (Tree.admits_file hitem _)]
  obtain ⟨path, hpath, hbroken⟩ := hset brokenText
  obtain ⟨path', hpath', hmarked⟩ := hset markedText
  rw [read_brokenText] at hbroken
  rw [read_markedText] at hmarked
  obtain ⟨loaded, hloaded⟩ := exists_discover_eq_ok hpath' hmarked rfl
  by_contra hnot
  have hsame : ∀ other, tree.AlikeBut address other →
      discover other.files start none = discover tree.files start none :=
    fun other halike => by_contra fun hne => hnot ⟨other, halike, hne⟩
  refine discover_ne_ok hpath hbroken rfl loaded ?_
  rw [hsame _ (Tree.alikeBut_set hitem _), ← hsame _ (Tree.alikeBut_set hitem _), hloaded]

/-- The search looks at the user's own file on its way up only if the home directory is the directory or above
it. -/
theorem isPrefix_of_mem_reached (hstart : start.IsStraight) (hhome : home.IsStraight)
    (hpath : path ∈ reached files start) (h : path.toAddress = (userFile home).toAddress) :
    home.toAddress <+: start.toAddress := by
  obtain ⟨directory, hdirectory, rfl⟩ := exists_of_mem_reached hpath
  rw [userFile, ((hstart.of_mem_ancestors hdirectory).join isName_fileName).2,
    (hhome.join isName_fileName).2] at h
  rw [← List.append_cancel_right h]
  exact hstart.toAddress_isPrefix_of_mem_ancestors hdirectory

/-- Whether a search without the user's own file gives the same whatever that file holds, and without it. -/
def LeavesOut (tree : Tree) (start home : Path) : Prop :=
  ∀ address other, tree.locate (userFile home) = .ok address → tree.AlikeBut address other →
    discover other.files start none = discover tree.files start none

/-- A search for the settings files of a directory gives the same whatever the user's own file holds, and
without it, if and only if the search does not look at that file on its way up; and it does not if the home
directory is neither the directory nor above it. -/
theorem leavesOut_iff (huser : tree.isFile (userFile home) = true) :
    (LeavesOut tree start home ↔
        ∀ path ∈ reached tree.files start, tree.locate path ≠ tree.locate (userFile home)) ∧
      (start.IsStraight → home.IsStraight → ¬ home.toAddress <+: start.toAddress →
        LeavesOut tree start home) := by
  obtain ⟨content, hfind⟩ := Tree.isFile_iff.1 huser
  cases huserFile : tree.locate (userFile home) with
  | error fault =>
    rw [Tree.find?_of_error huserFile] at hfind
    cases hfind
  | ok address =>
    rw [Tree.find?_of_locate huserFile] at hfind
    have hleaves : (∀ path ∈ reached tree.files start, tree.locate path ≠ .ok address) →
        LeavesOut tree start home := by
      intro hreached address' other hlocate halike
      obtain rfl := Except.ok.inj (huserFile.symm.trans hlocate)
      exact discover_eq_of_alikeBut halike hreached
    refine ⟨⟨fun h path hpath hlocate => ?_, hleaves⟩, fun hstart hhome hnot => hleaves ?_⟩
    · obtain ⟨other, halike, hne⟩ := exists_discover_ne hfind ⟨path, hpath, hlocate⟩
      exact hne (h address other huserFile halike)
    · intro path hpath hlocate
      have haddress : path.toAddress = (userFile home).toAddress :=
        (Tree.toAddress_of_locate hlocate).2.trans (Tree.toAddress_of_locate huserFile).2.symm
      exact hnot (isPrefix_of_mem_reached hstart hhome hpath haddress)

theorem leavesOut_markedBelowHome :
    markedBelowHome.isFile (userFile ⟨"/h"⟩) = true ∧
      LeavesOut markedBelowHome ⟨"/h/w/src"⟩ ⟨"/h"⟩ := by
  have huser : markedBelowHome.isFile (userFile ⟨"/h"⟩) = true := by decide +kernel
  exact ⟨huser, (leavesOut_iff huser).1.2 (by decide +kernel)⟩

/-- A home directory with nothing in it. -/
def emptyHome : Tree :=
  Tree.empty.set ["h"] .directory

/-- A home directory with the user's own settings file. -/
def furnishedHome : Tree :=
  emptyHome.set ["h", ".eolguard.toml"] (.file "expected-eol = 'crlf'".toUTF8)

/-- Left out, the user's own file still sets the line ending of what lies below the home directory. -/
theorem discover_below_home :
    furnishedHome.locate (userFile ⟨"/h"⟩) = .ok ["h", ".eolguard.toml"] ∧
      Tree.AlikeBut ["h", ".eolguard.toml"] emptyHome furnishedHome ∧
      (discover emptyHome.files ⟨"/h/w"⟩ none).map merge = .ok {} ∧
      (discover furnishedHome.files ⟨"/h/w"⟩ none).map merge = .ok { expected := .fixed .crlf } := by
  refine ⟨by decide +kernel, ⟨fun a ha => Tree.item?_set_of_ne _ _ ha, ?_, ?_⟩, ?_, ?_⟩
  · decide +kernel
  · decide +kernel
  · decide +kernel
  · decide +kernel

end

end LineEndings.Settings

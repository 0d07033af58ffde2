/-
Adding a line ending at the end of a file.

Where nothing is converted, mending adds a line ending at the end, or nothing. A `\r\n` is a line break of
its own whatever it is added to. A `\n` joins a `\r` that the text ends with, which is not counted as a line
ending at the end of a file: then no line break is added, and the last one becomes another. So

* `extends_terminate_iff` — the line breaks of a text stay as they are when a line ending is added, and one
  comes after them at most, unless a `\n` is added to a text that ends with `\r`;
* `fix_extends_iff` — and this is when they stay as they are in a file that is mended without being
  converted.
-/
import LineEndings.Proofs.Workspace.Mending

namespace LineEndings

/-! ### Line breaks of a text with something added -/

theorem breaks_append (text : List Char) {rest : List Char} (h : (marks rest).head? ≠ some (.lineBreak .lf)) :
    breaks (text ++ rest) = breaks text ++ breaks rest := by
  rw [breaks, marks_append text h, List.filterMap_append]
  rfl

theorem breaks_append_lf {text : List Char} (h : text.getLast? ≠ some '\r') :
    breaks (text ++ ['\n']) = breaks text ++ [.lf] := by
  rcases marks_snoc_lf text with hmarks | ⟨front, htext, -⟩
  · rw [breaks, hmarks, List.filterMap_append]
    rfl
  · refine absurd ?_ h
    rw [← textOf_marks text, htext, textOf_append]
    exact List.getLast?_concat

/-- A `\n` joins the `\r` that it comes after. -/
theorem exists_breaks_append_lf {text : List Char} (h : text.getLast? = some '\r') :
    ∃ kept, breaks text = kept ++ [.cr] ∧ breaks (text ++ ['\n']) = kept ++ [.crlf] := by
  obtain ⟨front, rfl⟩ := List.getLast?_eq_some_iff.1 h
  refine ⟨breaks front, breaks_append front (by decide), ?_⟩
  rw [List.append_assoc]
  exact breaks_append front (by decide)

/-- Whether a text is an earlier one with at most one line break more, at its end, and the line breaks
before it are what they were. -/
def Extends (old new : List Char) : Prop :=
  ∃ added : List Break, added.length ≤ 1 ∧ breaks new = breaks old ++ added ∧
    new = old ++ added.flatMap Break.characters

theorem extends_self (text : List Char) : Extends text text :=
  ⟨[], by simp⟩

theorem extends_of_breaks {text : List Char} (ending : Ending)
    (h : breaks (text ++ ending.characters) = breaks text ++ [ending.toBreak]) :
    Extends text (text ++ ending.characters) := by
  refine ⟨[ending.toBreak], Nat.le_refl 1, h, ?_⟩
  cases ending <;> rfl

theorem extends_append_characters_iff (ending : Ending) (text : List Char) :
    Extends text (text ++ ending.characters) ↔ ¬ (ending = .lf ∧ text.getLast? = some '\r') := by
  cases ending with
  | crlf => simpa using extends_of_breaks .crlf (breaks_append text (by decide))
  | lf =>
    constructor
    · rintro ⟨added, -, hbreaks, -⟩ ⟨-, hlast⟩
      -- There are as many line breaks as before, so none has been added to those that were there.
      obtain ⟨kept, hold, hnew⟩ := exists_breaks_append_lf hlast
      rw [Ending.characters, hnew, hold, List.append_assoc] at hbreaks
      cases List.append_cancel_left hbreaks
    · intro h
      exact extends_of_breaks .lf (breaks_append_lf fun hlast => h ⟨rfl, hlast⟩)

/-- A `\r` at the end does not count as a line ending there. -/
theorem isTerminated_of_getLast?_cr {text : List Char} (h : text.getLast? = some '\r') :
    isTerminated text = false := by
  obtain ⟨front, rfl⟩ := List.getLast?_eq_some_iff.1 h
  simp [isTerminated]

theorem extends_terminate_iff (ending : Ending) (text : List Char) :
    Extends text (terminate ending text) ↔ ¬ (ending = .lf ∧ text.getLast? = some '\r') := by
  rw [terminate]
  split
  · rename_i hterminated
    refine iff_of_true (extends_self text) ?_
    rintro ⟨-, hlast⟩
    rw [isTerminated_of_getLast?_cr hlast] at hterminated
    cases hterminated
  · exact extends_append_characters_iff ending text

/-! ### Files that are mended without being converted -/

/-- Whether a report asks for a `\n` to be added to a text that ends with `\r`. -/
def Report.Joins (report : Report) (text : List Char) : Prop :=
  report.lacksFinalNewline = true ∧ report.finalEnding = .lf ∧ text.getLast? = some '\r'

theorem Report.mend_of_not_needsConversion {report : Report} (h : report.needsConversion = false)
    (text : List Char) :
    report.mend text = if report.lacksFinalNewline then terminate report.finalEnding text else text := by
  rw [mend_eq, converted, h, if_neg Bool.false_ne_true]

theorem Report.extends_mend_iff {report : Report} (h : report.needsConversion = false) (text : List Char) :
    Extends text (report.mend text) ↔ ¬ report.Joins text := by
  rw [mend_of_not_needsConversion h, Joins]
  cases report.lacksFinalNewline with
  | true => simpa using extends_terminate_iff report.finalEnding text
  | false => simpa using extends_self text

theorem Report.Joins.mend_eq {report : Report} {text : List Char} (h : report.Joins text)
    (hneeds : report.needsConversion = false) : report.mend text = text ++ ['\n'] := by
  obtain ⟨hlacks, hfinal, hlast⟩ := h
  rw [mend_of_not_needsConversion hneeds, hlacks, if_pos rfl, hfinal, terminate,
    isTerminated_of_getLast?_cr hlast, if_neg Bool.false_ne_true]
  rfl

namespace Workspace

theorem needsConversion_of_finalNewlineOnly {workspace : Workspace} (h : workspace.settings.finalNewlineOnly = true)
    (tree : Tree) (path : Path) (text : String) : (workspace.report tree path text).needsConversion = false := by
  simp [report, h]

/-- Under a setting that looks at the end of files alone, no report asks for a conversion. Where none does,
a text file that is mended keeps its line breaks, and has one more at its end at most, unless a `\n` is
added to a text that ends with `\r`. Then that is all that is added, no line break is, and the `\r` has
become a `\r\n`. -/
theorem fix_extends_iff (workspace : Workspace) (tree : Tree) (path : Path) (text : String) :
    let report := workspace.report tree path text
    (workspace.settings.finalNewlineOnly = true → report.needsConversion = false) ∧
      (tree.content path = .ok (.text text) → report.needsConversion = false →
        ∃ after new, workspace.fix tree path = .ok (.ofReport (some report), after) ∧
          after.read path = .ok (String.toUTF8 new) ∧
          (Extends text.toList new.toList ↔ ¬ report.Joins text.toList) ∧
          (report.Joins text.toList → new.toList = text.toList ++ ['\n'] ∧
            ∃ kept, breaks text.toList = kept ++ [.cr] ∧ breaks new.toList = kept ++ [.crlf])) := by
  intro report
  refine ⟨fun h => needsConversion_of_finalNewlineOnly h tree path text, fun hcontent hneeds => ?_⟩
  obtain ⟨after, hfix, hread⟩ := fix_of_text workspace hcontent
  refine ⟨after, String.ofList (report.mend text.toList), hfix, hread, ?_, fun hjoins => ?_⟩
  · rw [String.toList_ofList]
    exact Report.extends_mend_iff hneeds text.toList
  · rw [String.toList_ofList, hjoins.mend_eq hneeds]
    exact ⟨rfl, exists_breaks_append_lf hjoins.2.2⟩

/-- A workspace where only the ends of files are looked at. -/
def endsOnly : Workspace :=
  ofSettings ⟨"/w"⟩ { Settings.merge [] with finalNewlineOnly := true }

/-- A directory with one file. -/
def oneFile (text : String) : Tree :=
  (Tree.empty.set ["w"] .directory).set ["w", "a"] (.file text.toUTF8)

theorem read_oneFile (text : String) : (oneFile text).read ⟨"/w/a"⟩ = .ok text.toUTF8 := by
  have hadmits : Tree.Admits (Tree.empty.set ["w"] .directory).items ["w", "a"] (.file text.toUTF8) :=
    ⟨by decide, by decide +kernel, by decide +kernel, fun h => absurd h (by decide +kernel)⟩
  have hitem : (oneFile text).item? ["w", "a"] = some (.file text.toUTF8) := Tree.item?_set_self hadmits
  have hlocate : (oneFile text).locate ⟨"/w/a"⟩ = .ok ["w", "a"] := by
    have hpath : (⟨"/w/a"⟩ : Path) = .ofAddress ["w", "a"] := by decide +kernel
    rw [hpath, Tree.locate_ofAddress hitem]
  exact Tree.read_of_locate hlocate hitem

/-- Two kinds of line break, of which only one can be asked for: this is the kind that is added. -/
theorem fix_extends_mixed :
    endsOnly.settings.finalNewlineOnly = true ∧
      (oneFile "a\rb\r\nc").content ⟨"/w/a"⟩ = .ok (.text "a\rb\r\nc") ∧
      (endsOnly.report (oneFile "a\rb\r\nc") ⟨"/w/a"⟩ "a\rb\r\nc").needsConversion = false ∧
      ∃ after new, endsOnly.fix (oneFile "a\rb\r\nc") ⟨"/w/a"⟩ = .ok (.changed .crlf, after) ∧
        after.read ⟨"/w/a"⟩ = .ok (String.toUTF8 new) ∧ Extends "a\rb\r\nc".toList new.toList := by
  have honly : endsOnly.settings.finalNewlineOnly = true := by decide
  have hcontent : (oneFile "a\rb\r\nc").content ⟨"/w/a"⟩ = .ok (.text "a\rb\r\nc") := by decide +kernel
  obtain ⟨hneeds, hfixed⟩ := fix_extends_iff endsOnly (oneFile "a\rb\r\nc") ⟨"/w/a"⟩ "a\rb\r\nc"
  obtain ⟨after, new, hfix, hread, hextends, -⟩ := hfixed hcontent (hneeds honly)
  have houtcome : Outcome.ofReport (some (endsOnly.report (oneFile "a\rb\r\nc") ⟨"/w/a"⟩ "a\rb\r\nc")) =
      .changed .crlf := by decide +kernel
  rw [houtcome] at hfix
  refine ⟨honly, hcontent, hneeds honly, after, new, hfix, hread, hextends.2 ?_⟩
  rintro ⟨-, -, hlast⟩
  revert hlast
  decide

/-- The one line break of the text is `\r`, and then it is `\r\n`. -/
theorem fix_joins_cr :
    endsOnly.settings.finalNewlineOnly = true ∧ (oneFile "a\r").content ⟨"/w/a"⟩ = .ok (.text "a\r") ∧
      (endsOnly.report (oneFile "a\r") ⟨"/w/a"⟩ "a\r").needsConversion = false ∧
      ∃ after, endsOnly.fix (oneFile "a\r") ⟨"/w/a"⟩ = .ok (.changed .lf, after) ∧
        after.read ⟨"/w/a"⟩ = .ok "a\r\n".toUTF8 ∧ ¬ Extends "a\r".toList "a\r\n".toList := by
  have hcontent : (oneFile "a\r").content ⟨"/w/a"⟩ = .ok (.text "a\r") := by decide +kernel
  obtain ⟨after, hfix, hread⟩ := fix_of_text endsOnly hcontent
  have houtcome : Outcome.ofReport (some (endsOnly.report (oneFile "a\r") ⟨"/w/a"⟩ "a\r")) = .changed .lf := by
    decide +kernel
  have hmended : String.ofList ((endsOnly.report (oneFile "a\r") ⟨"/w/a"⟩ "a\r").mend "a\r".toList) = "a\r\n" := by
    decide +kernel
  rw [houtcome] at hfix
  rw [hmended] at hread
  refine ⟨by decide, hcontent, by decide +kernel, after, hfix, hread, fun hextends => ?_⟩
  exact (extends_append_characters_iff .lf "a\r".toList).1 hextends ⟨rfl, by decide⟩

end Workspace

end LineEndings

/-
What mending does to a text.

* `isClean_report_mend` — where the same is expected of it, there is nothing to mend in a mended text;
* `mend_ne` — so mending changes every text that there is something to mend in;
* `read_mend` — a properties file without lone carriage returns says the same when it has been mended;
* `fix_of_locate`, `fix_of_text` — mending a file that a path leads to succeeds, and does what checking it said;
  a text file holds the mended text then.
-/
import LineEndings.Workspace.Fix
import LineEndings.Proofs.Property.Respelling
import LineEndings.Proofs.Tree.Locating

namespace LineEndings

/-! ### A mended text -/

/-- In a text with one kind of line break that kind is the dominant one, if any is. -/
theorem dominant?_getD_of_isUniform {text : List Char} {ending : Ending}
    (h : (Counts.ofText text).isUniform ending = true) :
    (Counts.ofText text).dominant?.getD ending = ending := by
  cases ending with
  | lf =>
    simp only [Counts.isUniform, Bool.and_eq_true, beq_iff_eq] at h
    rw [Counts.dominant?]
    split
    · rfl
    · rw [if_neg (by omega)]
      rfl
  | crlf =>
    simp only [Counts.isUniform, Bool.and_eq_true, beq_iff_eq] at h
    rw [Counts.dominant?]
    split
    · rfl
    · rw [if_pos (by omega)]
      rfl

namespace Report

/-- The text with its line breaks converted, if a report says so. -/
def converted (report : Report) (text : List Char) : List Char :=
  if report.needsConversion then convert report.target text else text

/-- The line ending that a report adds where one is missing. -/
def finalEnding (report : Report) : Ending :=
  if report.needsConversion then report.target else report.counts.dominant?.getD report.target

theorem mend_eq (report : Report) (text : List Char) :
    report.mend text =
      if report.lacksFinalNewline then terminate report.finalEnding (report.converted text)
      else report.converted text :=
  rfl

/-- Where there is nothing to mend, the text stays as it is. -/
theorem mend_of_isClean {report : Report} (h : report.isClean = true) (text : List Char) :
    report.mend text = text := by
  rw [isClean, Bool.and_eq_true, Bool.not_eq_true', Bool.not_eq_true'] at h
  rw [mend_eq, converted, h.1, h.2, if_neg Bool.false_ne_true, if_neg Bool.false_ne_true]

theorem isTerminated_mend (report : Report) (text : List Char)
    (h : report.lacksFinalNewline = true ∨ isTerminated text = true) :
    isTerminated (report.mend text) = true := by
  rw [mend_eq]
  cases hlacks : report.lacksFinalNewline with
  | true => exact isTerminated_terminate _ _
  | false =>
    have htext : isTerminated text = true := by
      rcases h with h | h
      · rw [hlacks] at h
        cases h
      · exact h
    rw [if_neg Bool.false_ne_true, converted]
    split
    · exact isTerminated_convert _ htext
    · exact htext

theorem isUniform_mend (report : Report) (text : List Char) {ending : Ending}
    (hcounts : report.counts = Counts.ofText text)
    (hending : report.expectation.decision.expected.ending? = some ending)
    (h : report.needsConversion = true ∨ (Counts.ofText text).isUniform ending = true) :
    (Counts.ofText (report.mend text)).isUniform ending = true := by
  have htarget : report.target = ending := by
    rw [target, hending]
    rfl
  have hconverted : (Counts.ofText (report.converted text)).isUniform ending = true ∧
      report.finalEnding = ending := by
    rw [converted, finalEnding, htarget]
    cases hneeds : report.needsConversion with
    | true => exact ⟨isUniform_convert ending text, rfl⟩
    | false =>
      have huniform : (Counts.ofText text).isUniform ending = true := by
        rcases h with h | h
        · rw [hneeds] at h
          cases h
        · exact h
      refine ⟨huniform, ?_⟩
      rw [if_neg Bool.false_ne_true, hcounts, dominant?_getD_of_isUniform huniform]
  obtain ⟨huniform, hfinal⟩ := hconverted
  rw [mend_eq, hfinal]
  split
  · exact isUniform_terminate huniform
  · exact huniform

/-- Mending touches line breaks alone. -/
theorem respelled_mend (report : Report) (text : List Char) : Respelled text (report.mend text) := by
  rw [mend_eq, converted]
  split
  · split
    · exact respelled_terminate _ (lettersOf_convert _ text) (total_convert _ text)
    · exact respelled_terminate _ rfl rfl
  · split
    · exact respelled_convert _ text
    · exact Respelled.refl text

/-- A properties file says the same when it has been mended. -/
theorem read_mend (report : Report) (schema : Property.Schema) (path : String) {text : List Char}
    (h : .cr ∉ breaks text) :
    Property.Source.read schema path (String.ofList (report.mend text)) =
      Property.Source.read schema path (String.ofList text) := by
  have hconverted : .cr ∉ breaks (report.converted text) ∧
      Property.Source.read schema path (String.ofList (report.converted text)) =
        Property.Source.read schema path (String.ofList text) := by
    rw [converted]
    split
    · exact ⟨cr_not_mem_of_isUniform (isUniform_convert _ text), Property.read_convert schema path _ h⟩
    · exact ⟨h, rfl⟩
  obtain ⟨hcr, hread⟩ := hconverted
  rw [mend_eq]
  split
  · rw [Property.read_terminate schema path, hread]
  · exact hread

end Report

namespace Workspace

variable {workspace : Workspace} {tree before : Tree} {path : Path}

theorem report_congr
    (h : workspace.expectation tree path = workspace.expectation before path) (text : String) :
    workspace.report tree path text = workspace.report before path text := by
  unfold report
  rw [h]

/-- There is nothing to mend in a mended text. -/
theorem isClean_report_mend (workspace : Workspace) (tree : Tree) (path : Path) (text : String) :
    (workspace.report tree path
      (String.ofList ((workspace.report tree path text).mend text.toList))).isClean = true := by
  rw [Report.isClean, Bool.and_eq_true, Bool.not_eq_true', Bool.not_eq_true']
  constructor
  · -- Where a line ending is expected, the line breaks had that kind or have been converted to it.
    cases hending : (workspace.expectation tree path).decision.expected.ending? with
    | none => simp [report, hending]
    | some ending =>
      cases honly : workspace.settings.finalNewlineOnly with
      | true => simp [report, honly]
      | false =>
        have huniform := Report.isUniform_mend (workspace.report tree path text) text.toList rfl hending
          (by cases h : (Counts.ofText text.toList).isUniform ending <;> simp [report, hending, honly, h])
        simp only [report, hending, String.toList_ofList, Option.any_some] at huniform ⊢
        rw [huniform]
        simp
  · cases hwants : workspace.settings.finalNewlineOnly ||
        (workspace.expectation tree path).insertFinalNewline? == some true with
    | false => simp only [report, hwants, Bool.false_and]
    | true =>
      have hterminated := Report.isTerminated_mend (workspace.report tree path text) text.toList
        (by cases h : isTerminated text.toList <;> simp only [report, hwants, h] <;> simp)
      simp only [report, String.toList_ofList] at hterminated ⊢
      rw [hterminated]
      simp

/-- Mending changes every text that there is something to mend in. -/
theorem mend_ne {text : String} (h : (workspace.report tree path text).isClean = false) :
    String.ofList ((workspace.report tree path text).mend text.toList) ≠ text := by
  intro heq
  have hclean := isClean_report_mend workspace tree path text
  rw [heq, h] at hclean
  cases hclean

end Workspace

/-! ### A mended file -/

theorem Content.ofBytes_eq_text {bytes : ByteArray} {text : String}
    (h : Content.ofBytes bytes = .text text) : String.fromUTF8? bytes = some text := by
  rw [Content.ofBytes] at h
  split at h
  · cases h
  · split at h
    · rename_i s hs
      rw [hs, Content.text.inj h]
    · cases h

/-- What mending does to a file with this report, or with none. -/
def Outcome.ofReport : Option Report → Outcome
  | none => .skipped
  | some report => if report.isClean then .unchanged else .changed report.target

namespace Workspace

variable {workspace : Workspace} {tree before : Tree} {path : Path} {address : Address}
  {content : ByteArray}

/-- The report on what a file holds, if that is text. -/
def reportOn? (workspace : Workspace) (tree : Tree) (path : Path) (content : ByteArray) :
    Option Report :=
  match Content.ofBytes content with
  | .text text => some (workspace.report tree path text)
  | _ => none

/-- What a file holds when it has been mended. -/
def mended (workspace : Workspace) (tree : Tree) (path : Path) (content : ByteArray) : ByteArray :=
  match Content.ofBytes content with
  | .text text =>
    let report := workspace.report tree path text
    if report.isClean then content else (String.ofList (report.mend text.toList)).toUTF8
  | _ => content

theorem reportOn?_congr
    (h : workspace.expectation tree path = workspace.expectation before path) (content : ByteArray) :
    workspace.reportOn? tree path content = workspace.reportOn? before path content := by
  unfold reportOn?
  simp only [report_congr h]

theorem mended_congr
    (h : workspace.expectation tree path = workspace.expectation before path) (content : ByteArray) :
    workspace.mended tree path content = workspace.mended before path content := by
  unfold mended
  simp only [report_congr h]

/-- There is nothing to mend in what a mended file holds. -/
theorem isClean_reportOn?_mended (workspace : Workspace) (tree : Tree) (path : Path)
    (content : ByteArray) :
    ∀ report ∈ workspace.reportOn? tree path (workspace.mended tree path content),
      report.isClean = true := by
  intro report hreport
  cases hcontent : Content.ofBytes content with
  | text text =>
    cases hclean : (workspace.report tree path text).isClean with
    | true =>
      simp only [mended, hcontent, hclean, if_true, reportOn?] at hreport
      obtain rfl := Option.some.inj hreport
      exact hclean
    | false =>
      simp only [mended, hcontent, hclean, reportOn?] at hreport
      -- The mended text may look binary, because of a zero byte that conversion has moved nearer.
      split at hreport
      · rename_i text' htext'
        have hsame := Content.ofBytes_eq_text htext'
        simp only [Bool.false_eq_true, if_false, fromUTF8?_toUTF8, Option.some_inj] at hsame
        obtain rfl := Option.some.inj hreport
        rw [← hsame]
        exact isClean_report_mend workspace tree path text
      · cases hreport
  | binary =>
    simp only [mended, hcontent, reportOn?] at hreport
    cases hreport
  | notText =>
    simp only [mended, hcontent, reportOn?] at hreport
    cases hreport

/-- A properties file says the same when it has been mended. -/
theorem read_mended (schema : Property.Schema) (label : String)
    (h : ∀ text, String.fromUTF8? content = some text → .cr ∉ breaks text.toList) :
    (String.fromUTF8? (workspace.mended tree path content)).map (Property.Source.read schema label) =
      (String.fromUTF8? content).map (Property.Source.read schema label) := by
  cases hcontent : Content.ofBytes content with
  | text text =>
    have htext := Content.ofBytes_eq_text hcontent
    cases hclean : (workspace.report tree path text).isClean with
    | true => simp only [mended, hcontent, hclean, if_true]
    | false =>
      simp only [mended, hcontent, hclean, Bool.false_eq_true, if_false, fromUTF8?_toUTF8, htext,
        Option.map_some]
      rw [Report.read_mend _ schema label (h text htext), String.ofList_toList]
  | binary => simp only [mended, hcontent]
  | notText => simp only [mended, hcontent]

theorem content_of_locate (hlocate : tree.locate path = .ok address)
    (h : tree.item? address = some (.file content)) : tree.content path = .ok (.ofBytes content) := by
  rw [Tree.content, Tree.read_of_locate hlocate h]

/-- A file that a path leads to can be checked. -/
theorem check_of_locate (hlocate : tree.locate path = .ok address)
    (h : tree.item? address = some (.file content)) :
    workspace.check tree path = .ok (workspace.reportOn? tree path content) := by
  rw [check, content_of_locate hlocate h, reportOn?]
  cases Content.ofBytes content <;> rfl

theorem check_ofAddress (h : tree.item? address = some (.file content)) :
    workspace.check tree (.ofAddress address) =
      .ok (workspace.reportOn? tree (.ofAddress address) content) :=
  check_of_locate (Tree.locate_ofAddress h) h

/-- Where there is nothing to mend, nothing is written. -/
theorem fix_of_isClean {report? : Option Report} (h : workspace.check tree path = .ok report?)
    (hclean : ∀ report ∈ report?, report.isClean = true) :
    workspace.fix tree path = .ok (.ofReport report?, tree) := by
  rw [check] at h
  rw [fix]
  cases hcontent : tree.content path with
  | error failure =>
    rw [hcontent] at h
    cases h
  | ok content =>
    rw [hcontent] at h
    cases content with
    | text text =>
      obtain rfl := Except.ok.inj h
      have htext := hclean _ rfl
      simp only [fixText, Outcome.ofReport, htext, Bool.true_or, if_true]
    | binary =>
      obtain rfl := Except.ok.inj h
      rfl
    | notText =>
      obtain rfl := Except.ok.inj h
      rfl

/-- Mending a file that a path leads to succeeds, does what the report on it says, and changes no other
file. -/
theorem fix_of_locate (workspace : Workspace) (hlocate : tree.locate path = .ok address)
    (h : tree.item? address = some (.file content)) :
    ∃ after, workspace.fix tree path =
        .ok (.ofReport (workspace.reportOn? tree path content), after) ∧
      ∀ a, after.item? a =
        if a = address then some (.file (workspace.mended tree path content)) else tree.item? a := by
  have hcontent := content_of_locate hlocate h
  have hsame : ∀ a, tree.item? a = if a = address then some (.file content) else tree.item? a := by
    intro a
    by_cases ha : a = address
    · rw [if_pos ha, ha, h]
    · rw [if_neg ha]
  cases hbytes : Content.ofBytes content with
  | text text =>
    cases hclean : (workspace.report tree path text).isClean with
    | true =>
      refine ⟨tree, ?_, ?_⟩
      · refine fix_of_isClean (check_of_locate hlocate h) fun report hreport => ?_
        simp only [reportOn?, hbytes] at hreport
        exact Option.some.inj hreport ▸ hclean
      · simp only [mended, hbytes, hclean, if_true]
        exact hsame
    | false =>
      obtain ⟨after, hwrite, hafter⟩ := Tree.write_of_locate hlocate h
        (String.ofList ((workspace.report tree path text).mend text.toList)).toUTF8
      refine ⟨after, ?_, ?_⟩
      · simp only [fix, hcontent, hbytes, fixText, reportOn?, Outcome.ofReport, hclean,
          Bool.false_or, beq_iff_eq, if_neg (mend_ne hclean), hwrite, Bool.false_eq_true, if_false]
      · simp only [mended, hbytes, hclean, Bool.false_eq_true, if_false]
        exact hafter
  | binary =>
    refine ⟨tree, ?_, ?_⟩
    · simp only [fix, hcontent, hbytes, reportOn?, Outcome.ofReport]
    · simp only [mended, hbytes]
      exact hsame
  | notText =>
    refine ⟨tree, ?_, ?_⟩
    · simp only [fix, hcontent, hbytes, reportOn?, Outcome.ofReport]
    · simp only [mended, hbytes]
      exact hsame

theorem exists_read_of_content {text : String} (h : tree.content path = .ok (.text text)) :
    ∃ content, tree.read path = .ok content ∧ Content.ofBytes content = .text text := by
  rw [Tree.content] at h
  split at h
  · cases h
  · rename_i content hread
    exact ⟨content, hread, Except.ok.inj h⟩

/-- A text file gets what the report on it asks for, and holds the mended text then. -/
theorem fix_of_text (workspace : Workspace) {text : String} (h : tree.content path = .ok (.text text)) :
    ∃ after, workspace.fix tree path =
        .ok (.ofReport (some (workspace.report tree path text)), after) ∧
      after.read path = .ok (String.ofList ((workspace.report tree path text).mend text.toList)).toUTF8 := by
  obtain ⟨content, hread, hcontent⟩ := exists_read_of_content h
  obtain ⟨address, hlocate, hitem⟩ := Tree.exists_locate_of_read hread
  obtain ⟨after, hfix, hafter⟩ := fix_of_locate workspace hlocate hitem
  refine ⟨after, by simpa only [reportOn?, hcontent] using hfix, ?_⟩
  rw [Tree.read_of_replaced hlocate hitem hafter]
  simp only [mended, hcontent]
  split
  · rename_i hclean
    rw [Report.mend_of_isClean hclean, String.ofList_toList,
      toUTF8_of_fromUTF8? (Content.ofBytes_eq_text hcontent)]
  · rfl

/-- Where nothing has been changed, the tree is as it was. -/
theorem eq_of_fix {after : Tree} {outcome : Outcome}
    (h : workspace.fix tree path = .ok (outcome, after))
    (hunchanged : ∀ target, outcome ≠ .changed target) : after = tree := by
  rw [fix] at h
  split at h
  · cases h
  · rw [fixText] at h
    split at h
    · exact (Prod.mk.inj (Except.ok.inj h)).2.symm
    · split at h
      · cases h
      · exact absurd (Prod.mk.inj (Except.ok.inj h)).1.symm (hunchanged _)
  · exact (Prod.mk.inj (Except.ok.inj h)).2.symm

end Workspace

end LineEndings

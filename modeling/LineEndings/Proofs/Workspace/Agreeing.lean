/-
Mending does what checking says, and touches nothing but line breaks.

Checking decides by counting line breaks, mending by rewriting them. `check_and_fix` sets the two side by
side: on a path that cannot be read both fail alike, and on any other mending does what the report asks for.
`fix_agrees_with_check` says what follows for the outcomes, for the bytes of the file, and for the other
files of the tree.
-/
import LineEndings.Proofs.Workspace.Mending

namespace LineEndings

theorem toUTF8_injective {text text' : String} (h : text.toUTF8 = text'.toUTF8) : text = text' := by
  have hsome : some text = some text' := by rw [← fromUTF8?_toUTF8, h, fromUTF8?_toUTF8]
  exact Option.some.inj hsome

/-- Whether a tree is an earlier one with the text at a path respelled, and all else as it was. -/
def Tree.RespelledAt (tree : Tree) (path : Path) (after : Tree) : Prop :=
  ∃ (address : Address) (old new : String),
    tree.locate path = .ok address ∧ tree.item? address = some (.file old.toUTF8) ∧
      (∀ a, after.item? a = if a = address then some (.file new.toUTF8) else tree.item? a) ∧
      Respelled old.toList new.toList

namespace Workspace

variable {workspace : Workspace} {tree after : Tree} {path : Path} {address : Address}
  {content : ByteArray}

/-- A file that cannot be read can be neither checked nor mended; any other gets what its report asks for. -/
theorem check_and_fix (workspace : Workspace) (tree : Tree) (path : Path) :
    (∃ failure, workspace.check tree path = .error failure ∧
      workspace.fix tree path = .error failure) ∨
    ∃ address content after, tree.locate path = .ok address ∧
      tree.item? address = some (.file content) ∧
      workspace.check tree path = .ok (workspace.reportOn? tree path content) ∧
      workspace.fix tree path = .ok (.ofReport (workspace.reportOn? tree path content), after) ∧
      ∀ a, after.item? a =
        if a = address then some (.file (workspace.mended tree path content)) else tree.item? a := by
  cases hread : tree.read path with
  | error fault =>
    refine Or.inl ⟨.fileRead path fault, ?_, ?_⟩
    · rw [check, Tree.content, hread]
    · rw [fix, Tree.content, hread]
  | ok content =>
    obtain ⟨address, hlocate, hitem⟩ := Tree.exists_locate_of_read hread
    obtain ⟨after, hfix, hafter⟩ := fix_of_locate workspace hlocate hitem
    exact Or.inr ⟨address, content, after, hlocate, hitem, check_of_locate hlocate hitem, hfix, hafter⟩

/-- A report that asks for something is about a text, and mending that gives another one. -/
theorem exists_text_of_reportOn? {report : Report}
    (h : workspace.reportOn? tree path content = some report) (hclean : report.isClean = false) :
    ∃ old new : String, content = old.toUTF8 ∧ workspace.mended tree path content = new.toUTF8 ∧
      new ≠ old ∧ Respelled old.toList new.toList := by
  cases hbytes : Content.ofBytes content with
  | text old =>
    simp only [reportOn?, hbytes] at h
    obtain rfl := Option.some.inj h
    refine ⟨old, _, (toUTF8_of_fromUTF8? (Content.ofBytes_eq_text hbytes)).symm, ?_,
      mend_ne hclean, ?_⟩
    · simp only [mended, hbytes, hclean, Bool.false_eq_true, if_false]
    · rw [String.toList_ofList]
      exact Report.respelled_mend _ old.toList
  | binary =>
    simp only [reportOn?, hbytes] at h
    cases h
  | notText =>
    simp only [reportOn?, hbytes] at h
    cases h

theorem Outcome.ofReport_eq_changed {report? : Option Report} {target : Ending}
    (h : Outcome.ofReport report? = .changed target) :
    ∃ report, report? = some report ∧ report.isClean = false := by
  cases report? with
  | none => cases h
  | some report =>
    refine ⟨report, rfl, ?_⟩
    cases hclean : report.isClean with
    | true =>
      rw [Outcome.ofReport, hclean] at h
      cases h
    | false => rfl

/-- What mending leaves when it has changed a file. -/
theorem respelledAt_of_fix {target : Ending}
    (h : workspace.fix tree path = .ok (.changed target, after)) :
    tree.RespelledAt path after ∧ after.read path ≠ tree.read path := by
  rcases check_and_fix workspace tree path with
    ⟨failure, -, hfix⟩ | ⟨address, content, after', hlocate, hitem, -, hfix, hafter⟩
  · rw [hfix] at h
    cases h
  · rw [hfix] at h
    obtain ⟨houtcome, rfl⟩ := Prod.mk.inj (Except.ok.inj h)
    obtain ⟨report, hreport, hclean⟩ := Outcome.ofReport_eq_changed houtcome
    obtain ⟨old, new, rfl, hnew, hne, hrespelled⟩ := exists_text_of_reportOn? hreport hclean
    rw [hnew] at hafter
    refine ⟨⟨address, old, new, hlocate, hitem, hafter, hrespelled⟩, fun hread => ?_⟩
    rw [Tree.read_of_replaced hlocate hitem hafter, Tree.read_of_locate hlocate hitem] at hread
    exact hne (toUTF8_injective (Except.ok.inj hread))

/-- Checking a file and mending it agree. They fail on the same paths, in the same way; a file without a
report is skipped, one with nothing to mend is left unchanged, and one with something to mend is changed.
The bytes of the file change exactly then, and the text that is written differs from the old one in its
line breaks alone, of which it has as many or one more; no other file changes. -/
theorem fix_agrees_with_check (workspace : Workspace) (tree : Tree) (path : Path) :
    (∀ failure, workspace.check tree path = .error failure ↔
      workspace.fix tree path = .error failure) ∧
    (workspace.check tree path = .ok none ↔
      ∃ after, workspace.fix tree path = .ok (.skipped, after)) ∧
    ((∃ report, workspace.check tree path = .ok (some report) ∧ report.isClean = true) ↔
      ∃ after, workspace.fix tree path = .ok (.unchanged, after)) ∧
    ((∃ report, workspace.check tree path = .ok (some report) ∧ report.isClean = false) ↔
      ∃ target after, workspace.fix tree path = .ok (.changed target, after)) ∧
    ∀ outcome after, workspace.fix tree path = .ok (outcome, after) →
      (after.read path ≠ tree.read path ↔ ∃ target, outcome = .changed target) ∧
      ((∃ target, outcome = .changed target) → tree.RespelledAt path after) ∧
      ((∀ target, outcome ≠ .changed target) → after = tree) := by
  refine ⟨?_, ?_, ?_, ?_, fun outcome after hfix => ?_⟩
  -- The first four compare the two results.
  iterate 4
    rcases check_and_fix workspace tree path with
      ⟨failure, hcheck, hfix⟩ | ⟨_, content, _, -, -, hcheck, hfix, -⟩
    · rw [hcheck, hfix]
      simp
    · rw [hcheck, hfix]
      cases workspace.reportOn? tree path content with
      | none => simp [Outcome.ofReport]
      | some report => cases hclean : report.isClean <;> simp [Outcome.ofReport, hclean]
  by_cases hchanged : ∃ target, outcome = .changed target
  · obtain ⟨target, rfl⟩ := hchanged
    obtain ⟨hrespelled, hread⟩ := respelledAt_of_fix hfix
    exact ⟨⟨fun _ => ⟨target, rfl⟩, fun _ => hread⟩, fun _ => hrespelled, fun h => absurd rfl (h target)⟩
  · have hafter : after = tree := eq_of_fix hfix fun target houtcome => hchanged ⟨target, houtcome⟩
    subst hafter
    exact ⟨⟨fun hread => absurd rfl hread, fun h => absurd h hchanged⟩, fun h => absurd h hchanged,
      fun _ => rfl⟩

end Workspace

end LineEndings

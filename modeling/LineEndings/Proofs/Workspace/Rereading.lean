/-
Reading a file again that has been mended.

Only the first bytes of a file tell whether it is binary, so a text file may have a zero byte further on.
Mending a text file writes text. But a conversion to `\n` makes what stands before a zero byte shorter, by
one byte for every `\r\n`, and can so bring it among the first bytes. Nothing else that mending does can, so

* `convert_append_cons`, `exists_of_convert_eq_append_cons` — what stands before a character that is not
  part of a line break is converted on its own;
* `hasZeroWithin_mend_iff` — the first bytes of a mended text hold a zero when a conversion has brought one
  there;
* `fix_rereads_iff` — and only then a file that has been mended is not taken for text any more.
-/
import LineEndings.Proofs.Ending.Lines
import LineEndings.Proofs.Text.Encoding
import LineEndings.Proofs.Workspace.Appending

namespace LineEndings

variable {target : Ending} {text : List Char} {c : Char}

/-! ### What stands before a character -/

theorem exists_of_append_eq_append_cons {front rest above below : List Char} (hc : c ∉ front)
    (h : front ++ rest = above ++ c :: below) :
    ∃ middle, above = front ++ middle ∧ rest = middle ++ c :: below := by
  rcases List.append_eq_append_iff.1 h with hinside | ⟨middle, rfl, hmiddle⟩
  · exact hinside
  · cases middle with
    | nil => exact ⟨[], by simp, hmiddle.symm⟩
    | cons d middle =>
      obtain ⟨rfl, -⟩ := List.cons.inj hmiddle
      simp at hc

theorem notMem_characters (hr : c ≠ '\r') (hn : c ≠ '\n') (ending : Ending) : c ∉ ending.characters := by
  cases ending <;> simp [Ending.characters, hr, hn]

theorem marks_append_cons (hr : c ≠ '\r') (hn : c ≠ '\n') (front back : List Char) :
    marks (front ++ c :: back) = marks front ++ .char c :: marks back := by
  have hback : marks (c :: back) = .char c :: marks back := marks_char hr hn back
  rw [marks_append front (by simp [hback]), hback]

theorem convert_append_cons (target : Ending) (hr : c ≠ '\r') (hn : c ≠ '\n') (front back : List Char) :
    convert target (front ++ c :: back) = convert target front ++ c :: convert target back := by
  rw [convert, marks_append_cons hr hn, List.map_append, textOf_append]
  rfl

/-- What stands before a character of a converted text is the conversion of what stood before it. -/
theorem exists_of_convert_eq_append_cons (hr : c ≠ '\r') (hn : c ≠ '\n') {above below : List Char}
    (h : convert target text = above ++ c :: below) :
    ∃ front back, text = front ++ c :: back ∧ convert target front = above ∧ convert target back = below := by
  induction text using markInduction generalizing above with
  | nil => simp [convert, marks, textOf] at h
  | lineBreak b rest hmarks ih =>
    rw [convert_eq_characters_append target hmarks] at h
    obtain ⟨middle, rfl, hrest⟩ := exists_of_append_eq_append_cons (notMem_characters hr hn target) h
    obtain ⟨front, back, rfl, rfl, hback⟩ := ih hrest
    -- `c` is part of no line break, so whether this one stands for itself is settled before `c`.
    have hfront : marks (b.characters ++ front) = .lineBreak b :: marks front := by
      rw [← List.append_assoc, marks_append_cons hr hn, marks_append_cons hr hn, ← List.cons_append] at hmarks
      exact List.append_cancel_right hmarks
    exact ⟨b.characters ++ front, back, (List.append_assoc _ _ _).symm,
      convert_eq_characters_append target hfront, hback⟩
  | char d rest hdr hdn ih =>
    rw [convert_char target hdr hdn] at h
    cases above with
    | nil =>
      obtain ⟨rfl, hrest⟩ := List.cons.inj h
      exact ⟨[], rest, rfl, rfl, hrest⟩
    | cons e above =>
      obtain ⟨rfl, hrest⟩ := List.cons.inj h
      obtain ⟨front, back, rfl, rfl, hback⟩ := ih hrest
      exact ⟨d :: front, back, rfl, convert_char target hdr hdn front, hback⟩

/-! ### How long a converted text is -/

/-- A conversion to `\n` saves the `\r` of every `\r\n`. -/
theorem utf8Len_convert_lf (text : List Char) :
    String.utf8Len (convert .lf text) + (Counts.ofText text).crlf = String.utf8Len text := by
  show _ + (breaks text).count .crlf = _
  induction text using markInduction with
  | nil => rfl
  | lineBreak b rest h ih =>
    have hbreak : String.utf8Len b.characters =
        String.utf8Len Ending.lf.characters + if b == .crlf then 1 else 0 := by
      cases b <;> rfl
    rw [convert_eq_characters_append .lf h, breaks_eq_cons h, String.utf8Len_append, String.utf8Len_append,
      hbreak, ← ih, List.count_cons]
    omega
  | char c rest hr hn ih =>
    rw [convert_char .lf hr hn, breaks_char hr hn, String.utf8Len_cons, String.utf8Len_cons, ← ih]
    omega

/-- A conversion to `\r\n` makes no text shorter. -/
theorem utf8Len_le_convert_crlf (text : List Char) :
    String.utf8Len text ≤ String.utf8Len (convert .crlf text) := by
  induction text using markInduction with
  | nil => exact Nat.le_refl 0
  | lineBreak b rest h ih =>
    have hbreak : String.utf8Len b.characters ≤ String.utf8Len Ending.crlf.characters := by
      cases b <;> decide
    rw [convert_eq_characters_append .crlf h, String.utf8Len_append, String.utf8Len_append]
    exact Nat.add_le_add hbreak ih
  | char c rest hr hn ih =>
    rw [convert_char .crlf hr hn, String.utf8Len_cons, String.utf8Len_cons]
    exact Nat.add_le_add_right ih _

/-! ### Zero characters near the start -/

theorem hasZeroWithin_convert_iff {size : Nat} :
    Text.HasZeroWithin size (convert target text) ↔
      ∃ above below, text = above ++ '\x00' :: below ∧ String.utf8Len (convert target above) < size := by
  constructor
  · rintro ⟨above, below, h, hsize⟩
    obtain ⟨front, back, htext, rfl, -⟩ := exists_of_convert_eq_append_cons (by decide) (by decide) h
    exact ⟨front, back, htext, hsize⟩
  · rintro ⟨above, below, rfl, hsize⟩
    exact ⟨_, _, convert_append_cons target (by decide) (by decide) above below, hsize⟩

theorem hasZeroWithin_of_convert_crlf {size : Nat} (h : Text.HasZeroWithin size (convert .crlf text)) :
    Text.HasZeroWithin size text := by
  obtain ⟨above, below, htext, hsize⟩ := hasZeroWithin_convert_iff.1 h
  exact ⟨above, below, htext, (utf8Len_le_convert_crlf above).trans_lt hsize⟩

theorem hasZeroWithin_terminate_iff {size : Nat} (ending : Ending) :
    Text.HasZeroWithin size (terminate ending text) ↔ Text.HasZeroWithin size text := by
  rw [terminate]
  split
  · rfl
  · exact Text.hasZeroWithin_append_iff (notMem_characters (by decide) (by decide) ending)

namespace Report

/-- Whether a report asks for a conversion after which there is a zero character of a text among the first
bytes: a conversion to `\n`, which brings a zero nearer by one byte for every `\r\n` before it. -/
def BringsZeroNear (report : Report) (text : List Char) : Prop :=
  report.needsConversion = true ∧ report.target = .lf ∧
    ∃ above below, text = above ++ '\x00' :: below ∧
      String.utf8Len above < sniffLength + (Counts.ofText above).crlf

/-- Converting brings a zero among the first bytes, if there was none, in this case only. -/
theorem hasZeroWithin_converted_iff (report : Report) (h : ¬ Text.HasZeroWithin sniffLength text) :
    Text.HasZeroWithin sniffLength (report.converted text) ↔ report.BringsZeroNear text := by
  rw [converted, BringsZeroNear]
  cases report.needsConversion with
  | false => simpa using h
  | true =>
    cases report.target with
    | crlf => simpa using fun hzero => h (hasZeroWithin_of_convert_crlf hzero)
    | lf =>
      simp only [if_true, true_and, hasZeroWithin_convert_iff]
      refine exists_congr fun above => exists_congr fun below => and_congr_right fun _ => ?_
      have hlength := utf8Len_convert_lf above
      omega

theorem hasZeroWithin_mend_iff (report : Report) (h : ¬ Text.HasZeroWithin sniffLength text) :
    Text.HasZeroWithin sniffLength (report.mend text) ↔ report.BringsZeroNear text := by
  rw [mend_eq, ← report.hasZeroWithin_converted_iff h]
  split
  · exact hasZeroWithin_terminate_iff report.finalEnding
  · rfl

/-- It is the first zero of a text that counts: the others stay behind it. -/
theorem bringsZeroNear_append_zero_iff (report : Report) {front rest : List Char} (hfront : '\x00' ∉ front) :
    report.BringsZeroNear (front ++ '\x00' :: rest) ↔
      report.needsConversion = true ∧ report.target = .lf ∧
        String.utf8Len front < sniffLength + (Counts.ofText front).crlf := by
  refine and_congr_right fun _ => and_congr_right fun _ => ⟨?_, fun h => ⟨front, rest, rfl, h⟩⟩
  rintro ⟨above, below, h, hsize⟩
  obtain ⟨middle, rfl, hmiddle⟩ := exists_of_append_eq_append_cons hfront h
  cases middle with
  | nil => simpa using hsize
  | cons c middle =>
    obtain ⟨rfl, -⟩ := List.cons.inj hmiddle
    -- Before a later zero stands, converted, all that stands before the first one, and the first one.
    have habove := utf8Len_convert_lf (front ++ '\x00' :: middle)
    rw [convert_append_cons .lf (by decide) (by decide), String.utf8Len_append] at habove
    have hlength := utf8Len_convert_lf front
    omega

end Report

/-! ### Files that are read again -/

theorem Content.ofBytes_toUTF8 (text : String) :
    (Content.ofBytes text.toUTF8 = .text text ↔ ¬ Text.HasZeroWithin sniffLength text.toList) ∧
      (Content.ofBytes text.toUTF8 = .binary ↔ Text.HasZeroWithin sniffLength text.toList) := by
  rw [← Text.contains_zero_extract_iff, ofBytes, fromUTF8?_toUTF8]
  cases (text.toUTF8.extract 0 sniffLength).data.contains 0 <;> simp

theorem Tree.content_of_read {tree : Tree} {path : Path} {bytes : ByteArray} (h : tree.read path = .ok bytes) :
    tree.content path = .ok (.ofBytes bytes) := by
  rw [content, h]

theorem not_hasZeroWithin_of_content {tree : Tree} {path : Path} {old : String}
    (h : tree.content path = .ok (.text old)) : ¬ Text.HasZeroWithin sniffLength old.toList := by
  obtain ⟨bytes, -, hbytes⟩ := Workspace.exists_read_of_content h
  rw [← (Content.ofBytes_toUTF8 old).1, toUTF8_of_fromUTF8? (Content.ofBytes_eq_text hbytes), hbytes]

namespace Workspace

variable {workspace : Workspace} {tree after : Tree} {path : Path}

/-- Only text files are changed. -/
theorem exists_content_of_fix {ending : Ending} (h : workspace.fix tree path = .ok (.changed ending, after)) :
    ∃ old, tree.content path = .ok (.text old) := by
  rw [fix] at h
  split at h
  · cases h
  · exact ⟨_, ‹_›⟩
  · cases h

/-- What is text when it is read gets a report, and is not skipped. -/
theorem not_skipped_of_content (workspace : Workspace) {text : String} (h : tree.content path = .ok (.text text)) :
    (∃ report, workspace.check tree path = .ok (some report)) ∧
      ∃ outcome later, workspace.fix tree path = .ok (outcome, later) ∧ outcome ≠ .skipped := by
  obtain ⟨later, hfix, -⟩ := fix_of_text workspace h
  refine ⟨⟨_, by rw [check, h]⟩, _, later, hfix, ?_⟩
  rw [Outcome.ofReport]
  split <;> exact Outcome.noConfusion

/-- What looks binary when it is read gets no report, and is skipped. -/
theorem skipped_of_content (workspace : Workspace) (h : tree.content path = .ok .binary) :
    workspace.check tree path = .ok none ∧ workspace.fix tree path = .ok (.skipped, tree) :=
  ⟨by rw [check, h], by rw [fix, h]⟩

/-- What a text file that has been mended is taken for. -/
theorem content_of_fix (workspace : Workspace) {old : String} (h : tree.content path = .ok (.text old)) :
    ∃ after new, workspace.fix tree path = .ok (.ofReport (some (workspace.report tree path old)), after) ∧
      after.read path = .ok (String.toUTF8 new) ∧
      (¬ (workspace.report tree path old).BringsZeroNear old.toList → after.content path = .ok (.text new)) ∧
      ((workspace.report tree path old).BringsZeroNear old.toList → after.content path = .ok .binary) := by
  obtain ⟨after, hfix, hread⟩ := fix_of_text workspace h
  obtain ⟨htext, hbinary⟩ :=
    Content.ofBytes_toUTF8 (String.ofList ((workspace.report tree path old).mend old.toList))
  rw [String.toList_ofList, Report.hasZeroWithin_mend_iff _ (not_hasZeroWithin_of_content h)] at htext hbinary
  refine ⟨after, _, hfix, hread, fun hfar => ?_, fun hnear => ?_⟩
  · rw [Tree.content_of_read hread, htext.2 hfar]
  · rw [Tree.content_of_read hread, hbinary.2 hnear]

/-- A file that has been changed was text, and is valid text again. When it is read again it is taken for
text, so that it gets a report and is not skipped, unless a conversion to `\n` has brought a zero among its
first bytes: then it looks binary, gets no report and is skipped. -/
theorem fix_rereads_iff (workspace : Workspace) (tree after : Tree) (path : Path) (target : Ending)
    (hfix : workspace.fix tree path = .ok (.changed target, after)) :
    ∃ old new, tree.content path = .ok (.text old) ∧ after.read path = .ok (String.toUTF8 new) ∧
      (¬ (workspace.report tree path old).BringsZeroNear old.toList →
        (∃ report, workspace.check after path = .ok (some report)) ∧
          ∃ outcome later, workspace.fix after path = .ok (outcome, later) ∧ outcome ≠ .skipped) ∧
      ((workspace.report tree path old).BringsZeroNear old.toList →
        target = .lf ∧ '\x00' ∈ old.toList ∧
          workspace.check after path = .ok none ∧ workspace.fix after path = .ok (.skipped, after)) := by
  obtain ⟨old, hcontent⟩ := exists_content_of_fix hfix
  obtain ⟨after', new, hfix', hread, htext, hbinary⟩ := content_of_fix workspace hcontent
  obtain ⟨houtcome, rfl⟩ := Prod.mk.inj (Except.ok.inj (hfix'.symm.trans hfix))
  refine ⟨old, new, hcontent, hread, fun hfar => not_skipped_of_content workspace (htext hfar), fun hnear => ?_⟩
  have hskipped := skipped_of_content workspace (hbinary hnear)
  obtain ⟨hneeds, hlf, above, below, hold, -⟩ := hnear
  refine ⟨?_, by simp [hold], hskipped⟩
  rw [Outcome.ofReport] at houtcome
  split at houtcome
  · cases houtcome
  · rw [← Outcome.changed.inj houtcome, hlf]

/-! ### A zero near the limit -/

/-- A workspace where `\n` is expected of every file. -/
def lfOnly : Workspace :=
  ofSettings ⟨"/w"⟩ { Settings.merge [] with expected := .fixed .lf, respectProperties := false }

/-- A `\r\n` and so many characters after it. -/
def lineBefore (n : Nat) : List Char :=
  '\r' :: '\n' :: List.replicate n 'a'

/-- The same with a zero at its end. -/
def zeroAfter (n : Nat) : String :=
  String.ofList (lineBefore n ++ ['\x00'])

theorem zero_notMem_lineBefore (n : Nat) : '\x00' ∉ lineBefore n := by
  simp [lineBefore]

theorem utf8Len_lineBefore (n : Nat) : String.utf8Len (lineBefore n) = n + 2 := by
  have hreplicate : String.utf8Len (List.replicate n 'a') = n := by
    induction n with
    | zero => rfl
    | succ n ih =>
      rw [List.replicate_succ, String.utf8Len_cons, ih]
      rfl
  show String.utf8Len (List.replicate n 'a') + 1 + 1 = n + 2
  rw [hreplicate]

theorem crlf_lineBefore (n : Nat) : (Counts.ofText (lineBefore n)).crlf = 1 := by
  have hreplicate : breaks (List.replicate n 'a') = [] := by
    induction n with
    | zero => rfl
    | succ n ih => rw [List.replicate_succ, breaks_char (by decide) (by decide), ih]
  show (breaks (lineBefore n)).count .crlf = 1
  rw [lineBefore, breaks_eq_cons (marks_crlf _), hreplicate]
  rfl

theorem content_zeroAfter {n : Nat} (h : sniffLength ≤ n + 2) :
    (oneFile (zeroAfter n)).content ⟨"/w/a"⟩ = .ok (.text (zeroAfter n)) := by
  rw [Tree.content_of_read (read_oneFile (zeroAfter n)), (Content.ofBytes_toUTF8 (zeroAfter n)).1.2]
  rw [zeroAfter, String.toList_ofList, Text.hasZeroWithin_append_zero_iff (zero_notMem_lineBefore n),
    utf8Len_lineBefore]
  omega

theorem needsConversion_zeroAfter (n : Nat) :
    (lfOnly.report (oneFile (zeroAfter n)) ⟨"/w/a"⟩ (zeroAfter n)).needsConversion = true := by
  refine needsConversion_report_iff.2 ⟨rfl, .lf, rfl, fun h => ?_⟩
  rw [convert_eq_self_iff_counts, isUniform_lf_iff] at h
  simp [zeroAfter, lineBefore] at h

theorem outcome_zeroAfter (n : Nat) :
    Outcome.ofReport (some (lfOnly.report (oneFile (zeroAfter n)) ⟨"/w/a"⟩ (zeroAfter n))) = .changed .lf := by
  rw [Outcome.ofReport, Report.isClean, needsConversion_zeroAfter]
  rfl

theorem bringsZeroNear_zeroAfter_iff (n : Nat) :
    (lfOnly.report (oneFile (zeroAfter n)) ⟨"/w/a"⟩ (zeroAfter n)).BringsZeroNear (zeroAfter n).toList ↔
      n + 2 < sniffLength + 1 := by
  rw [zeroAfter, String.toList_ofList, Report.bringsZeroNear_append_zero_iff _ (zero_notMem_lineBefore n),
    utf8Len_lineBefore, crlf_lineBefore]
  exact ⟨fun h => h.2.2, fun h => ⟨needsConversion_zeroAfter n, rfl, h⟩⟩

/-- There is a byte between the limit and the zero, so the zero stays out. -/
theorem fix_rereads_far_zero :
    ∃ after, lfOnly.fix (oneFile (zeroAfter 8191)) ⟨"/w/a"⟩ = .ok (.changed .lf, after) ∧
      (∃ report, lfOnly.check after ⟨"/w/a"⟩ = .ok (some report)) ∧
      ∃ outcome later, lfOnly.fix after ⟨"/w/a"⟩ = .ok (outcome, later) ∧ outcome ≠ .skipped := by
  have hcontent : (oneFile (zeroAfter 8191)).content ⟨"/w/a"⟩ = .ok (.text (zeroAfter 8191)) :=
    content_zeroAfter (by decide)
  obtain ⟨after, new, hfix, -⟩ := content_of_fix lfOnly hcontent
  rw [outcome_zeroAfter] at hfix
  obtain ⟨old, new, hold, -, htext, -⟩ := fix_rereads_iff lfOnly _ after _ .lf hfix
  obtain rfl := Content.text.inj (Except.ok.inj (hcontent.symm.trans hold))
  refine ⟨after, hfix, htext fun hnear => ?_⟩
  exact absurd ((bringsZeroNear_zeroAfter_iff 8191).1 hnear) (by decide)

/-- The zero is the first byte that is not looked at, and the last one that is when the file has been
changed. -/
theorem fix_hides_text :
    (oneFile (zeroAfter 8190)).content ⟨"/w/a"⟩ = .ok (.text (zeroAfter 8190)) ∧
      ∃ after, lfOnly.fix (oneFile (zeroAfter 8190)) ⟨"/w/a"⟩ = .ok (.changed .lf, after) ∧
        lfOnly.check after ⟨"/w/a"⟩ = .ok none ∧ lfOnly.fix after ⟨"/w/a"⟩ = .ok (.skipped, after) := by
  have hcontent : (oneFile (zeroAfter 8190)).content ⟨"/w/a"⟩ = .ok (.text (zeroAfter 8190)) :=
    content_zeroAfter (by decide)
  obtain ⟨after, new, hfix, -, -, hbinary⟩ := content_of_fix lfOnly hcontent
  rw [outcome_zeroAfter] at hfix
  have hnear := (bringsZeroNear_zeroAfter_iff 8190).2 (by decide)
  exact ⟨hcontent, after, hfix, skipped_of_content lfOnly (hbinary hnear)⟩

end Workspace

end LineEndings

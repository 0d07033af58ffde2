/-
Going through a text once from its start.

The marks of a text are put together from its end, and both the counts of a text and what it is converted to are
said in terms of them. A pass from the start, which looks one character ahead when it comes to a `\r`, meets the
same marks one after the other (`markInduction`), so

* `countFrom_eq`, `rewriteFrom_eq` — counting line breaks on such a pass gives the counts, and writing a line ending
  for each of them gives the converted text;
* `convert_eq_self_iff` — converting leaves a text alone when it changes none of its marks;
* `convert_eq_self_iff_isUniform` — so the two agree: a text is its own conversion when all line breaks that are
  counted are of that kind.
-/
import LineEndings.Proofs.Ending.Converting
import LineEndings.Workspace.Check

namespace LineEndings

/-! ### Passes -/

/-- The counts with one more line break. -/
def Counts.noting (counts : Counts) : Break → Counts
  | .lf => { counts with lf := counts.lf + 1 }
  | .crlf => { counts with crlf := counts.crlf + 1 }
  | .cr => { counts with cr := counts.cr + 1 }

/-- The counts with the line breaks of a text noted one after the other. -/
def Counts.countFrom (counts : Counts) : List Char → Counts
  | [] => counts
  | '\r' :: '\n' :: text => countFrom (counts.noting .crlf) text
  | '\r' :: text => countFrom (counts.noting .cr) text
  | '\n' :: text => countFrom (counts.noting .lf) text
  | _ :: text => countFrom counts text

/-- What has been written with a text added, `ending` for each line break. -/
def rewriteFrom (ending : List Char) (written : List Char) : List Char → List Char
  | [] => written
  | '\r' :: '\n' :: text => rewriteFrom ending (written ++ ending) text
  | '\r' :: text => rewriteFrom ending (written ++ ending) text
  | '\n' :: text => rewriteFrom ending (written ++ ending) text
  | c :: text => rewriteFrom ending (written ++ [c]) text

variable {text : List Char}

/-! ### Marks from the start -/

theorem marks_crlf (text : List Char) : marks ('\r' :: '\n' :: text) = .lineBreak .crlf :: marks text :=
  rfl

theorem marks_lf (text : List Char) : marks ('\n' :: text) = .lineBreak .lf :: marks text :=
  rfl

theorem marks_char {c : Char} (hr : c ≠ '\r') (hn : c ≠ '\n') (text : List Char) :
    marks (c :: text) = .char c :: marks text := by
  rw [marks_cons]
  unfold consMark
  rw [if_neg hr, if_neg hn]

theorem marks_lone_cr (h : text.head? ≠ some '\n') : marks ('\r' :: text) = .lineBreak .cr :: marks text := by
  cases text with
  | nil => rfl
  | cons c text =>
    have hc : c ≠ '\n' := fun hc => h (by rw [hc]; rfl)
    have hhead : (marks (c :: text)).head? ≠ some (.lineBreak .lf) := by
      by_cases hr : c = '\r'
      · rw [hr]
        exact head?_marks_cr text
      · rw [marks_char hr hc]
        simp
    have hjoin : consMark '\r' ([] ++ marks (c :: text)) = consMark '\r' [] ++ marks (c :: text) :=
      consMark_append '\r' (Or.inr hhead)
    exact hjoin

/-- A `\r` stands alone only if no `\n` comes next. -/
theorem head?_of_lone_cr (h : marks ('\r' :: text) = .lineBreak .cr :: marks text) : text.head? ≠ some '\n' := by
  intro hhead
  obtain ⟨rest, rfl⟩ := List.head?_eq_some_iff.1 hhead
  cases (marks_crlf rest).symm.trans h

/-- Induction over the marks of a text from its start, all line breaks being alike. -/
@[elab_as_elim]
theorem markInduction {motive : List Char → Prop} (nil : motive [])
    (lineBreak : ∀ (b : Break) rest, marks (b.characters ++ rest) = .lineBreak b :: marks rest →
      motive rest → motive (b.characters ++ rest))
    (char : ∀ c rest, c ≠ '\r' → c ≠ '\n' → motive rest → motive (c :: rest)) : ∀ text, motive text
  | [] => nil
  | [c] => by
    by_cases hr : c = '\r'
    · subst hr
      exact lineBreak .cr [] rfl nil
    · by_cases hn : c = '\n'
      · subst hn
        exact lineBreak .lf [] rfl nil
      · exact char c [] hr hn nil
  | c :: d :: rest => by
    by_cases hr : c = '\r'
    · subst hr
      -- One character ahead tells whether the `\r` stands alone.
      by_cases hd : d = '\n'
      · subst hd
        exact lineBreak .crlf rest (marks_crlf rest) (markInduction nil lineBreak char rest)
      · have hmarks : marks ('\r' :: d :: rest) = .lineBreak .cr :: marks (d :: rest) :=
          marks_lone_cr (by simpa using hd)
        exact lineBreak .cr (d :: rest) hmarks (markInduction nil lineBreak char (d :: rest))
    · by_cases hn : c = '\n'
      · subst hn
        exact lineBreak .lf (d :: rest) (marks_lf (d :: rest)) (markInduction nil lineBreak char (d :: rest))
      · exact char c (d :: rest) hr hn (markInduction nil lineBreak char (d :: rest))

/-! ### What a pass finds -/

theorem countFrom_characters_append (counts : Counts) {b : Break}
    (h : marks (b.characters ++ text) = .lineBreak b :: marks text) :
    counts.countFrom (b.characters ++ text) = (counts.noting b).countFrom text := by
  cases b with
  | lf => rfl
  | crlf => rfl
  | cr =>
    show counts.countFrom ('\r' :: text) = _
    rw [Counts.countFrom]
    rintro rest rfl
    exact head?_of_lone_cr h rfl

theorem countFrom_char (counts : Counts) {c : Char} (hr : c ≠ '\r') (hn : c ≠ '\n') (text : List Char) :
    counts.countFrom (c :: text) = counts.countFrom text := by
  rw [Counts.countFrom]
  · exact fun _ hc _ => hr hc
  · exact hr
  · exact hn

theorem rewriteFrom_characters_append (ending written : List Char) {b : Break}
    (h : marks (b.characters ++ text) = .lineBreak b :: marks text) :
    rewriteFrom ending written (b.characters ++ text) = rewriteFrom ending (written ++ ending) text := by
  cases b with
  | lf => rfl
  | crlf => rfl
  | cr =>
    show rewriteFrom ending written ('\r' :: text) = _
    rw [rewriteFrom]
    rintro rest rfl
    exact head?_of_lone_cr h rfl

theorem rewriteFrom_char (ending written : List Char) {c : Char} (hr : c ≠ '\r') (hn : c ≠ '\n')
    (text : List Char) : rewriteFrom ending written (c :: text) = rewriteFrom ending (written ++ [c]) text := by
  rw [rewriteFrom]
  · exact fun _ hc _ => hr hc
  · exact hr
  · exact hn

theorem breaks_eq_cons {rest : List Char} {b : Break} (h : marks text = .lineBreak b :: marks rest) :
    breaks text = b :: breaks rest := by
  rw [breaks, h]
  rfl

theorem breaks_char {c : Char} (hr : c ≠ '\r') (hn : c ≠ '\n') (text : List Char) :
    breaks (c :: text) = breaks text := by
  rw [breaks, marks_char hr hn]
  rfl

/-- A pass notes the line breaks of a text in their order. -/
theorem countFrom_eq_foldl (text : List Char) (counts : Counts) :
    counts.countFrom text = (breaks text).foldl Counts.noting counts := by
  induction text using markInduction generalizing counts with
  | nil => rfl
  | lineBreak b rest h ih => rw [countFrom_characters_append counts h, ih, breaks_eq_cons h, List.foldl_cons]
  | char c rest hr hn ih => rw [countFrom_char counts hr hn, ih, breaks_char hr hn]

theorem foldl_noting (bs : List Break) (counts : Counts) :
    bs.foldl Counts.noting counts =
      ⟨counts.lf + bs.count .lf, counts.crlf + bs.count .crlf, counts.cr + bs.count .cr⟩ := by
  induction bs generalizing counts with
  | nil => rfl
  | cons b bs ih =>
    rw [List.foldl_cons, ih, Counts.mk.injEq]
    cases b <;> simp [Counts.noting] <;> omega

/-- So it gives the counts. -/
theorem countFrom_eq (text : List Char) : Counts.countFrom ⟨0, 0, 0⟩ text = Counts.ofText text := by
  rw [countFrom_eq_foldl, foldl_noting]
  simp only [Nat.zero_add]
  rfl

theorem convert_eq_append {rest : List Char} {m : Mark} (target : Ending) (h : marks text = m :: marks rest) :
    convert target text = (m.withEnding target).characters ++ convert target rest := by
  rw [convert, h]
  rfl

theorem characters_withEnding_lineBreak (target : Ending) (b : Break) :
    (Mark.withEnding target (.lineBreak b)).characters = target.characters := by
  cases target <;> rfl

/-- A text that starts with a line break is converted to one that starts with the line ending. -/
theorem convert_eq_characters_append {rest : List Char} {b : Break} (target : Ending)
    (h : marks text = .lineBreak b :: marks rest) :
    convert target text = target.characters ++ convert target rest := by
  rw [convert_eq_append target h, characters_withEnding_lineBreak]

theorem convert_char (target : Ending) {c : Char} (hr : c ≠ '\r') (hn : c ≠ '\n') (text : List Char) :
    convert target (c :: text) = c :: convert target text :=
  convert_eq_append target (marks_char hr hn text)

/-- A pass writes the converted text. -/
theorem rewriteFrom_eq (target : Ending) (text written : List Char) :
    rewriteFrom target.characters written text = written ++ convert target text := by
  induction text using markInduction generalizing written with
  | nil => exact (List.append_nil written).symm
  | lineBreak b rest h ih =>
    rw [rewriteFrom_characters_append _ _ h, ih, convert_eq_characters_append target h, List.append_assoc]
  | char c rest hr hn ih =>
    rw [rewriteFrom_char _ _ hr hn, ih, convert_char target hr hn, List.append_assoc, List.singleton_append]

/-! ### What converting leaves alone -/

theorem withEnding_eq_self_iff {target : Ending} {m : Mark} :
    m.withEnding target = m ↔ ∀ b, m = .lineBreak b → b = target.toBreak := by
  cases m with
  | lineBreak b => simp [Mark.withEnding, eq_comm]
  | char c => simp [Mark.withEnding]

/-- A text is its own conversion when converting changes none of its marks. -/
theorem convert_eq_self_iff {target : Ending} {text : List Char} :
    convert target text = text ↔ ∀ m ∈ marks text, m.withEnding target = m := by
  constructor
  · intro h
    have hmarks : (marks text).map (Mark.withEnding target) = (marks text).map id := by
      rw [List.map_id, ← marks_convert, h]
    exact List.map_inj_left.1 hmarks
  · intro h
    rw [convert, List.map_congr_left h, List.map_id', textOf_marks]

/-- That is when all its line breaks are of the kind that it would be converted to. -/
theorem convert_eq_self_iff_counts {target : Ending} {text : List Char} :
    convert target text = text ↔ (Counts.ofText text).isUniform target = true := by
  rw [convert_eq_self_iff, isUniform_iff]
  simp only [withEnding_eq_self_iff, mem_breaks]
  constructor
  · intro h b hb
    exact h _ hb b rfl
  · rintro h m hm b rfl
    exact h b hm

/-- What a report says about converting, in terms of the text alone. -/
theorem needsConversion_report_iff {workspace : Workspace} {tree : Tree} {path : Path} {content : String} :
    (workspace.report tree path content).needsConversion = true ↔
      workspace.settings.finalNewlineOnly = false ∧ ∃ ending,
        (workspace.expectation tree path).decision.expected = .fixed ending ∧
          convert ending content.toList ≠ content.toList := by
  show (!workspace.settings.finalNewlineOnly &&
    (workspace.expectation tree path).decision.expected.ending?.any
      (!(Counts.ofText content.toList).isUniform ·)) = true ↔ _
  rw [Bool.and_eq_true, Bool.not_eq_true']
  refine and_congr_right fun _ => ?_
  simp only [ne_eq, convert_eq_self_iff_counts, Bool.not_eq_true]
  cases (workspace.expectation tree path).decision.expected with
  | auto => simp [Expected.ending?]
  | fixed ending => simp [Expected.ending?]

/-- The counts of a text and its conversion agree: a text is its own conversion when all line breaks that are
counted are of that kind. So a check asks for a conversion when a kind is expected, more than the final line ending
is looked at, and converting would change the text. Both are what one pass over the text gives. -/
theorem convert_eq_self_iff_isUniform (target : Ending) (text : List Char) :
    (convert target text = text ↔ (Counts.ofText text).isUniform target = true) ∧
      (∀ (workspace : Workspace) (tree : Tree) (path : Path) (content : String),
        (workspace.report tree path content).needsConversion = true ↔
          workspace.settings.finalNewlineOnly = false ∧ ∃ ending,
            (workspace.expectation tree path).decision.expected = .fixed ending ∧
              convert ending content.toList ≠ content.toList) ∧
      Counts.countFrom ⟨0, 0, 0⟩ text = Counts.ofText text ∧
      rewriteFrom target.characters [] text = convert target text :=
  ⟨convert_eq_self_iff_counts, fun _ _ _ _ => needsConversion_report_iff, countFrom_eq text,
    rewriteFrom_eq target text []⟩

end LineEndings

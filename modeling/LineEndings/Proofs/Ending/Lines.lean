/-
The lines of a text.

A text is cut at its line breaks, `\r\n` being one of them. Converting it puts the line ending that is asked
for between the lines it has, and no line ending written there joins what stands beside it. So

* `convert_eq_intercalate` — the converted text is the lines of the text with that line ending between them;
* `lines_convert` — it is cut into the same lines again;
* `convert_convert` — an earlier conversion leaves no trace in a later one;
* `convert_keeps_lines` — the three put together, with what is counted in a converted text.
-/
import LineEndings.Proofs.Ending.Passing
import LineEndings.Text.Split

namespace LineEndings

/-- What stands between the line breaks of a text. A `\r` and the `\n` after it are one line break, any
other `\r` or `\n` is one of its own. -/
def lines : List Char → List (List Char)
  | [] => [[]]
  | '\r' :: '\n' :: text => [] :: lines text
  | '\r' :: text => [] :: lines text
  | '\n' :: text => [] :: lines text
  | c :: text => Text.consFirst c (lines text)

variable {text : List Char}

/-! ### Cutting -/

theorem lines_char {c : Char} (hr : c ≠ '\r') (hn : c ≠ '\n') (text : List Char) :
    lines (c :: text) = Text.consFirst c (lines text) := by
  rw [lines]
  · exact fun _ hc _ => hr hc
  · exact hr
  · exact hn

/-- A line break at the start of a text ends an empty line. -/
theorem lines_characters_append {b : Break} (h : marks (b.characters ++ text) = .lineBreak b :: marks text) :
    lines (b.characters ++ text) = [] :: lines text := by
  cases b with
  | lf => rfl
  | crlf => rfl
  | cr =>
    show lines ('\r' :: text) = _
    rw [lines]
    rintro rest rfl
    exact head?_of_lone_cr h rfl

theorem lines_ne_nil (text : List Char) : lines text ≠ [] := by
  induction text using markInduction with
  | nil => exact List.cons_ne_nil _ _
  | lineBreak b rest h _ =>
    rw [lines_characters_append h]
    exact List.cons_ne_nil _ _
  | char c rest hr hn _ =>
    rw [lines_char hr hn]
    cases lines rest <;> exact List.cons_ne_nil _ _

/-- What a line ending ends with is `\n`, so at the start of a text it is a line break of its own. -/
theorem lines_ending_append (ending : Ending) (text : List Char) :
    lines (ending.characters ++ text) = [] :: lines text := by
  cases ending <;> rfl

/-! ### Putting together -/

theorem intercalate_nil_cons (ending : List Char) {rest : List (List Char)} (h : rest ≠ []) :
    List.intercalate ending ([] :: rest) = ending ++ List.intercalate ending rest := by
  obtain ⟨line, rest, rfl⟩ := List.exists_cons_of_ne_nil h
  rw [List.intercalate_cons_cons, List.nil_append]

theorem intercalate_consFirst (ending : List Char) (c : Char) (rest : List (List Char)) :
    List.intercalate ending (Text.consFirst c rest) = c :: List.intercalate ending rest := by
  cases rest with
  | nil => rfl
  | cons line rest =>
    cases rest with
    | nil => simp [Text.consFirst, List.intercalate_singleton]
    | cons next rest =>
      rw [Text.consFirst, List.intercalate_cons_cons, List.intercalate_cons_cons, List.cons_append,
        List.cons_append]

/-- The converted text is the lines of the text with the line ending between them. -/
theorem convert_eq_intercalate (target : Ending) (text : List Char) :
    convert target text = List.intercalate target.characters (lines text) := by
  induction text using markInduction with
  | nil => rfl
  | lineBreak b rest h ih =>
    rw [convert_eq_characters_append target h, ih, lines_characters_append h,
      intercalate_nil_cons _ (lines_ne_nil rest)]
  | char c rest hr hn ih => rw [convert_char target hr hn, ih, lines_char hr hn, intercalate_consFirst]

/-- Converting keeps the lines. -/
theorem lines_convert (target : Ending) (text : List Char) : lines (convert target text) = lines text := by
  induction text using markInduction with
  | nil => rfl
  | lineBreak b rest h ih =>
    rw [convert_eq_characters_append target h, lines_ending_append, ih, lines_characters_append h]
  | char c rest hr hn ih => rw [convert_char target hr hn, lines_char hr hn, lines_char hr hn, ih]

/-- Only the lines matter to a conversion, and these an earlier one has kept. -/
theorem convert_convert (earlier later : Ending) (text : List Char) :
    convert later (convert earlier text) = convert later text := by
  rw [convert_eq_intercalate later (convert earlier text), lines_convert, ← convert_eq_intercalate]

/-! ### Counting -/

namespace Counts

/-- A number of line breaks, all of them of one kind. -/
def only (ending : Ending) (number : Nat) : Counts :=
  match ending with
  | .lf => ⟨number, 0, 0⟩
  | .crlf => ⟨0, number, 0⟩

theorem eq_only_of_isUniform {counts : Counts} {ending : Ending} (h : counts.isUniform ending = true) :
    counts = only ending counts.total := by
  obtain ⟨lf, crlf, cr⟩ := counts
  cases ending with
  | lf =>
    obtain ⟨rfl, rfl⟩ : crlf = 0 ∧ cr = 0 := by simpa [isUniform] using h
    rfl
  | crlf =>
    obtain ⟨rfl, rfl⟩ : lf = 0 ∧ cr = 0 := by simpa [isUniform] using h
    simp [only, total]

theorem ofText_convert (target : Ending) (text : List Char) :
    ofText (convert target text) = only target (ofText text).total := by
  rw [← total_convert target text]
  exact eq_only_of_isUniform (isUniform_convert target text)

end Counts

/-- A text whose line breaks are all `\n` is one without `\r`. -/
theorem isUniform_lf_iff : (Counts.ofText text).isUniform .lf = true ↔ '\r' ∉ text := by
  rw [isUniform_iff]
  induction text using markInduction with
  | nil => simp [breaks, marks]
  | lineBreak b rest h ih =>
    rw [breaks_eq_cons h, List.forall_mem_cons, ih]
    cases b <;> simp [Break.characters, Ending.toBreak]
  | char c rest hr hn ih => simpa [breaks_char hr hn, hr.symm] using ih

/-- Converting keeps the lines of a text, and puts the line ending between them. All line breaks are counted
as that kind then, and as many as there were before of any kind. What a text is converted to does not depend
on what it has been converted to before, so that going to `\r\n` and back restores the texts that have no
`\r`, and no others. -/
theorem convert_keeps_lines (text : List Char) (target later : Ending) :
    lines (convert target text) = lines text ∧
      convert target text = List.intercalate target.characters (lines text) ∧
      Counts.ofText (convert target text) = Counts.only target (Counts.ofText text).total ∧
      convert later (convert target text) = convert later text ∧
      (convert .lf (convert .crlf text) = text ↔ '\r' ∉ text) := by
  refine ⟨lines_convert target text, convert_eq_intercalate target text, Counts.ofText_convert target text,
    convert_convert target later text, ?_⟩
  rw [convert_convert, convert_eq_self_iff_counts, isUniform_lf_iff]

/-- All kinds of line break, next to each other. -/
example : lines "a\r\r\n\n\rb\n".toList = ["a".toList, [], [], [], "b".toList, []] := by decide

end LineEndings

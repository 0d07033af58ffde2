/-
A properties file says the same with other line endings.

The lines of a text without lone carriage returns lie between its line breaks, of whatever kind these
are: the `\r` that a piece keeps is a blank at its end, and a line is trimmed before it is read
(`readLines_eq`). So

* `readLines_convert` — the lines of a file that has been converted lie between the line breaks it had;
* `read_append_blanks` — blanks at the end of a file say nothing, and neither does a line break there
  (`read_terminate`);
* `read_convert_eq` — converting changes what a file says only where something stands after a lone
  carriage return, which ends no line before and ends one afterwards.
-/
import LineEndings.Property.Source
import LineEndings.Proofs.Ending.Converting
import LineEndings.Proofs.Text.Trimming

namespace LineEndings

namespace Property

/-! ### Lines between line breaks -/

/-- The texts between the line breaks of a sequence of marks. -/
def betweenBreaks (ms : List Mark) : List (List Char) :=
  ms.foldr (fun m rest =>
    match m with
    | .lineBreak _ => [] :: rest
    | .char c => Text.consFirst c rest) [[]]

/-- Marks without the byte order mark that may stand at their start. -/
def marksWithoutMark : List Mark → List Mark
  | .char '\ufeff' :: ms => ms
  | ms => ms

/-- What the lines between line breaks say. -/
def linesOf (ms : List Mark) : List Line :=
  (betweenBreaks (marksWithoutMark ms)).map fun line => readLine line

theorem readLine_snoc {c : Char} (hc : Text.isBlank c = true) (line : List Char) :
    readLine (line ++ [c]) = readLine line := by
  have hblank : Text.allBlank [c] = true := by
    rw [Text.allBlank, List.all_cons, hc]
    rfl
  unfold readLine
  rw [Text.trim_append_blanks hblank]

theorem withoutMark_cons {c : Char} (h : c ≠ '\ufeff') (text : List Char) :
    withoutMark (c :: text) = c :: text := by
  unfold withoutMark
  split
  · rename_i heq
    exact absurd (List.cons.inj heq).1 h
  · rfl

theorem marksWithoutMark_cons {m : Mark} (h : m ≠ .char '\ufeff') (ms : List Mark) :
    marksWithoutMark (m :: ms) = m :: ms := by
  unfold marksWithoutMark
  split
  · rename_i heq
    exact absurd (List.cons.inj heq).1 h
  · rfl

/-- Whether two pieces are the same but for a `\r` at the end of the first. -/
def SameLine (piece line : List Char) : Prop :=
  piece = line ∨ piece = line ++ ['\r']

theorem forall₂_consFirst {c : Char} {l l' : List (List Char)} (h : List.Forall₂ SameLine l l') :
    List.Forall₂ SameLine (Text.consFirst c l) (Text.consFirst c l') := by
  cases h with
  | nil => exact .cons (Or.inl rfl) .nil
  | cons hline hrest =>
    refine .cons ?_ hrest
    rcases hline with rfl | rfl
    · exact Or.inl rfl
    · exact Or.inr rfl

theorem forall₂_pieces {ms : List Mark} (h : ∀ m ∈ ms, m.Stands) :
    List.Forall₂ SameLine (Text.pieces '\n' (textOf ms)) (betweenBreaks ms) := by
  induction ms with
  | nil => exact .cons (Or.inl rfl) .nil
  | cons m ms ih =>
    have hrest := ih fun m' hm' => h m' (List.mem_cons_of_mem _ hm')
    have hm := h m (by simp)
    cases m with
    | lineBreak b =>
      cases b with
      | lf => exact .cons (Or.inl rfl) hrest
      | crlf => exact .cons (Or.inr rfl) hrest
      | cr => exact absurd rfl hm
    | char c =>
      show List.Forall₂ SameLine (Text.pieces '\n' (c :: textOf ms)) _
      rw [Text.pieces_cons, if_neg hm.2]
      exact forall₂_consFirst hrest

theorem map_readLine_eq {l l' : List (List Char)} (h : List.Forall₂ SameLine l l') :
    l.map readLine = l'.map readLine := by
  induction h with
  | nil => rfl
  | cons hline hrest ih =>
    rw [List.map_cons, List.map_cons, ih]
    rcases hline with rfl | rfl
    · rfl
    · rw [readLine_snoc (by decide)]

theorem withoutMark_textOf (ms : List Mark) :
    withoutMark (textOf ms) = textOf (marksWithoutMark ms) := by
  cases ms with
  | nil => rfl
  | cons m ms =>
    by_cases hm : m = .char '\ufeff'
    · subst hm
      rfl
    · rw [marksWithoutMark_cons hm]
      cases m with
      | lineBreak b => cases b <;> exact withoutMark_cons (by decide) _
      | char c => exact withoutMark_cons (fun hc => hm (congrArg Mark.char hc)) _

/-- The lines of a file without lone carriage returns are those between its line breaks. -/
theorem readLines_eq {text : List Char} (h : .cr ∉ breaks text) :
    readLines (String.ofList text) = linesOf (marks text) := by
  have hstands := stands_of_breaks h
  have hrest : ∀ m ∈ marksWithoutMark (marks text), m.Stands := by
    intro m hm
    refine hstands m ?_
    unfold marksWithoutMark at hm
    split at hm
    · rename_i heq
      rw [heq]
      exact List.mem_cons_of_mem _ hm
    · exact hm
  have hmark := withoutMark_textOf (marks text)
  rw [textOf_marks] at hmark
  rw [readLines, String.toList_ofList, hmark]
  exact map_readLine_eq (forall₂_pieces hrest)

theorem linesOf_withEnding (target : Ending) (ms : List Mark) :
    linesOf (ms.map (Mark.withEnding target)) = linesOf ms := by
  have hbetween : ∀ ms : List Mark, betweenBreaks (ms.map (Mark.withEnding target)) = betweenBreaks ms := by
    intro ms
    induction ms with
    | nil => rfl
    | cons m ms ih =>
      cases m with
      | lineBreak b => exact congrArg ([] :: ·) ih
      | char c => exact congrArg (Text.consFirst c) ih
  have hmark : marksWithoutMark (ms.map (Mark.withEnding target)) =
      (marksWithoutMark ms).map (Mark.withEnding target) := by
    cases ms with
    | nil => rfl
    | cons m ms =>
      by_cases hm : m = .char '\ufeff'
      · subst hm
        rfl
      · have hm' : m.withEnding target ≠ .char '\ufeff' := by
          cases m with
          | lineBreak b => simp [Mark.withEnding]
          | char c => exact hm
        rw [marksWithoutMark_cons hm, List.map_cons, marksWithoutMark_cons hm']
  rw [linesOf, hmark, hbetween]
  rfl

/-! ### Reading -/

/-- What is read from a converted file, whichever kind its line breaks have been given. -/
theorem readLines_convert (target : Ending) (text : List Char) :
    readLines (String.ofList (convert target text)) = linesOf (marks text) := by
  have hconverted : .cr ∉ breaks (convert target text) :=
    cr_not_mem_of_isUniform (isUniform_convert target text)
  rw [readLines_eq hconverted, marks_convert, linesOf_withEnding]

/-- A blank at the end of a file belongs to its last line, or starts one that is void. -/
theorem readLines_snoc {c : Char} (hc : Text.isBlank c = true) (text : List Char) :
    readLines (String.ofList (text ++ [c])) = readLines (String.ofList text) ∨
      readLines (String.ofList (text ++ [c])) = readLines (String.ofList text) ++ [.void] := by
  have hmark : withoutMark (text ++ [c]) = withoutMark text ++ [c] := by
    cases text with
    | nil =>
      refine withoutMark_cons ?_ []
      rintro rfl
      exact absurd hc (by decide)
    | cons d text =>
      by_cases hd : d = '\ufeff'
      · subst hd
        rfl
      · rw [List.cons_append, withoutMark_cons hd, withoutMark_cons hd, List.cons_append]
  rw [readLines, readLines, String.toList_ofList, String.toList_ofList, hmark]
  by_cases hn : c = '\n'
  · refine Or.inr ?_
    rw [hn, Text.pieces_snoc_sep, List.map_append]
    rfl
  · obtain ⟨front, last, hpieces, hsnoc⟩ := Text.exists_pieces_snoc hn (withoutMark text)
    refine Or.inl ?_
    rw [hpieces, hsnoc, List.map_append, List.map_append, List.map_singleton, List.map_singleton,
      readLine_snoc hc]

variable (schema : Schema) (path : String)

/-- Blanks at the end of a file say nothing. -/
theorem read_append_blanks (text : List Char) {blanks : List Char} (h : Text.allBlank blanks = true) :
    Source.read schema path (String.ofList (text ++ blanks)) =
      Source.read schema path (String.ofList text) := by
  induction blanks using List.reverseRecOn with
  | nil => rw [List.append_nil]
  | append_singleton blanks c ih =>
    rw [Text.allBlank, List.all_append, Bool.and_eq_true] at h
    obtain ⟨hblanks, hc⟩ := h
    rw [List.all_cons, Bool.and_eq_true] at hc
    rw [← ih hblanks, ← List.append_assoc, Source.read, Source.read]
    rcases readLines_snoc hc.1 (text ++ blanks) with hlines | hlines
    · rw [hlines]
    · rw [hlines, List.zipIdx_append, List.foldl_append]
      rfl

/-- A properties file says the same with a line break at its end. -/
theorem read_terminate (ending : Ending) (text : List Char) :
    Source.read schema path (String.ofList (terminate ending text)) =
      Source.read schema path (String.ofList text) := by
  rw [terminate]
  split
  · rfl
  · refine read_append_blanks schema path text ?_
    cases ending <;> decide

/-- A properties file without lone carriage returns says the same with all its line breaks of one kind. -/
theorem read_convert (target : Ending) {text : List Char} (h : .cr ∉ breaks text) :
    Source.read schema path (String.ofList (convert target text)) =
      Source.read schema path (String.ofList text) := by
  rw [Source.read, readLines_convert, ← readLines_eq h]
  rfl

theorem allBlank_convert (target : Ending) {text : List Char} (h : Text.allBlank text = true) :
    Text.allBlank (convert target text) = true := by
  rw [Text.allBlank, List.all_eq_true] at h ⊢
  intro c hc
  by_cases hbreak : c = '\r' ∨ c = '\n'
  · rcases hbreak with rfl | rfl <;> decide
  · have hletter : c ∈ lettersOf (convert target text) :=
      List.mem_filter.2 ⟨hc, by simpa [not_or] using hbreak⟩
    rw [lettersOf_convert] at hletter
    exact h c (List.mem_filter.1 hletter).1

/-- Whether a carriage return without a line feed after it has only blanks after it. -/
def LoneCrsTrail (text : List Char) : Prop :=
  ∀ above below, text = above ++ '\r' :: below → below.head? ≠ some '\n' → Text.allBlank below = true

/-- What a properties file says when its line breaks have been converted is the same for both kinds of line
ending. It is what the file said before, unless something stands after a lone carriage return in it. -/
theorem read_convert_eq (text : List Char) (target : Ending) :
    (∀ other, Source.read schema path (String.ofList (convert target text)) =
      Source.read schema path (String.ofList (convert other text))) ∧
    (LoneCrsTrail text → Source.read schema path (String.ofList (convert target text)) =
      Source.read schema path (String.ofList text)) := by
  refine ⟨fun other => ?_, fun htrail => ?_⟩
  · rw [Source.read, Source.read, readLines_convert, readLines_convert]
  · by_cases hcr : .cr ∈ breaks text
    · -- Up to the first lone carriage return there is none, and what follows is blank.
      obtain ⟨above, below, rfl, hlf, habove⟩ := exists_lone_cr hcr
      have hblank : Text.allBlank ('\r' :: below) = true := htrail above below rfl hlf
      rw [convert_append target above (head?_marks_cr below), read_append_blanks schema path _ (allBlank_convert target hblank),
        read_convert schema path target habove, read_append_blanks schema path above hblank]
    · exact read_convert schema path target hcr

/-- A lone carriage return at the end of a file, where `\r\n` stands too. -/
theorem read_convert_trailing_cr :
    LoneCrsTrail "b=c\r\n\r ".toList ∧
      Source.read .lineEndings "a" (String.ofList (convert .crlf "b=c\r\n\r ".toList)) =
        Source.read .lineEndings "a" (String.ofList "b=c\r\n\r ".toList) := by
  have htrail : LoneCrsTrail "b=c\r\n\r ".toList := by
    intro above below htext hlf
    have habove : above.length < 7 := by
      have hlength := congrArg List.length htext
      rw [List.length_append, List.length_cons] at hlength
      have hseven : "b=c\r\n\r ".toList.length = 7 := by decide
      omega
    have hcr : "b=c\r\n\r ".toList[above.length]? = some '\r' := by
      rw [htext, List.getElem?_append_right (Nat.le_refl _), Nat.sub_self]
      rfl
    have hbelow : below = "b=c\r\n\r ".toList.drop (above.length + 1) := by
      rw [htext, List.drop_append]
      simp
    clear htext
    generalize above.length = n at habove hcr hbelow
    subst hbelow
    revert n
    decide +kernel
  exact ⟨htrail, (read_convert_eq .lineEndings "a" _ .crlf).2 htrail⟩

/-- The lone carriage return hides an assignment in a comment. -/
theorem read_convert_ne :
    Source.read .lineEndings "a" (String.ofList (convert .lf "# b\rend_of_line = lf".toList)) ≠
      Source.read .lineEndings "a" (String.ofList "# b\rend_of_line = lf".toList) := by
  intro h
  have hassignment := congrArg (fun source => source.assignments["end_of_line"]?) h
  revert hassignment
  decide +kernel

end Property

end LineEndings

/-
What converting and terminating do to the marks of a text.

A text can be read again from its marks as long as none of them is a lone `\r`, which a line feed after it
would join (`marks_textOf`). From that:

* `marks_convert` — converting changes the kind of the line breaks and nothing else, so afterwards all of
  them are of one kind (`isUniform_convert`);
* `marks_terminate` — terminating adds one line break, where one is needed;
* `isTerminated_convert`, `isTerminated_terminate` — what ends with a line break still does when it is
  converted, and what has been terminated does;
* `respelled_convert`, `respelled_terminate` — all that is not a line break stays, and so does the number
  of line breaks, but for one that may be added.
-/
import LineEndings.Ending.Convert
import LineEndings.Ending.Counts
import Mathlib.Data.List.Basic
import Mathlib.Data.List.Induction

namespace LineEndings

/-- Whether a mark is read again from its text, whatever comes after. -/
def Mark.Stands : Mark → Prop
  | .lineBreak b => b ≠ .cr
  | .char c => c ≠ '\r' ∧ c ≠ '\n'

/-- The character after which a line break ends. -/
theorem Break.getLast?_characters (b : Break) :
    b.characters.getLast? = some (if b = .cr then '\r' else '\n') := by
  cases b <;> rfl

theorem Ending.toBreak_ne_cr (ending : Ending) : ending.toBreak ≠ .cr := by
  cases ending <;> decide

/-! ### Reading marks -/

theorem marks_cons (c : Char) (text : List Char) : marks (c :: text) = consMark c (marks text) :=
  rfl

theorem textOf_append (ms ms' : List Mark) : textOf (ms ++ ms') = textOf ms ++ textOf ms' :=
  List.flatMap_append

theorem mem_consMark_char {c d : Char} {rest : List Mark} (h : .char d ∈ consMark c rest) :
    .char d ∈ rest ∨ d = c ∧ c ≠ '\r' ∧ c ≠ '\n' := by
  unfold consMark at h
  split at h
  · split at h <;> simp_all
  · split at h
    · simp_all
    · rcases List.mem_cons.1 h with h | h
      · exact Or.inr ⟨Mark.char.inj h, by assumption, by assumption⟩
      · exact Or.inl h

/-- No character of a line break stands between the line breaks. -/
theorem stands_of_mem_marks {text : List Char} {c : Char} (h : .char c ∈ marks text) :
    (Mark.char c).Stands := by
  induction text with
  | nil => cases h
  | cons d text ih =>
    rw [marks_cons] at h
    rcases mem_consMark_char h with h | ⟨rfl, hr, hn⟩
    · exact ih h
    · exact ⟨hr, hn⟩

theorem mem_breaks {text : List Char} {b : Break} : b ∈ breaks text ↔ .lineBreak b ∈ marks text := by
  rw [breaks, List.mem_filterMap]
  constructor
  · rintro ⟨m, hm, hb⟩
    cases m with
    | lineBreak b' => exact Option.some.inj hb ▸ hm
    | char c => cases hb
  · exact fun h => ⟨_, h, rfl⟩

/-- Without a lone carriage return all marks stand. -/
theorem stands_of_breaks {text : List Char} (h : .cr ∉ breaks text) : ∀ m ∈ marks text, m.Stands := by
  intro m hm
  cases m with
  | lineBreak b =>
    rintro rfl
    exact h (mem_breaks.2 hm)
  | char c => exact stands_of_mem_marks hm

/-- What stands is read again. -/
theorem marks_textOf {ms : List Mark} (h : ∀ m ∈ ms, m.Stands) : marks (textOf ms) = ms := by
  induction ms with
  | nil => rfl
  | cons m ms ih =>
    have hrest := ih fun m' hm' => h m' (List.mem_cons_of_mem _ hm')
    have hm := h m (by simp)
    -- Marks are read from the end, so those of the rest are there when this one is read.
    show (m.characters ++ textOf ms).foldr consMark [] = m :: ms
    rw [List.foldr_append]
    show m.characters.foldr consMark (marks (textOf ms)) = m :: ms
    rw [hrest]
    cases m with
    | lineBreak b =>
      cases b with
      | lf => rfl
      | crlf => rfl
      | cr => exact absurd rfl hm
    | char c =>
      obtain ⟨hr, hn⟩ := hm
      show consMark c ms = _
      unfold consMark
      rw [if_neg hr, if_neg hn]

/-! ### Reading on from a text -/

/-- The marks before are read apart from those after, unless a line feed could come to stand right after
the first character. -/
theorem consMark_append (c : Char) {ms ms' : List Mark}
    (h : ms ≠ [] ∨ ms'.head? ≠ some (.lineBreak .lf)) :
    consMark c (ms ++ ms') = consMark c ms ++ ms' := by
  unfold consMark
  by_cases hr : c = '\r'
  · rw [if_pos hr, if_pos hr]
    cases ms with
    | nil =>
      rw [List.nil_append]
      split
      · simp at h
      · rfl
    | cons m ms =>
      rw [List.cons_append]
      split <;> simp_all
  · rw [if_neg hr, if_neg hr]
    split <;> rfl

/-- A text is read apart from what follows, unless that starts with a line feed. -/
theorem marks_append (text : List Char) {rest : List Char}
    (h : (marks rest).head? ≠ some (.lineBreak .lf)) :
    marks (text ++ rest) = marks text ++ marks rest := by
  induction text with
  | nil => rfl
  | cons c text ih =>
    rw [List.cons_append, marks_cons, marks_cons, ih]
    exact consMark_append c (Or.inr h)

/-- A line feed after a text is a mark of its own, or it joins the `\r` that the text ends with. -/
theorem marks_snoc_lf (text : List Char) :
    marks (text ++ ['\n']) = marks text ++ [.lineBreak .lf] ∨
      ∃ front, marks text = front ++ [.lineBreak .cr] ∧
        marks (text ++ ['\n']) = front ++ [.lineBreak .crlf] := by
  induction text with
  | nil => exact Or.inl rfl
  | cons c text ih =>
    rw [List.cons_append, marks_cons, marks_cons]
    rcases ih with ih | ⟨front, htext, ih⟩
    · rw [ih]
      by_cases hjoins : c = '\r' ∧ marks text = []
      · obtain ⟨rfl, htext⟩ := hjoins
        exact Or.inr ⟨[], by rw [htext]; rfl, by rw [htext]; rfl⟩
      · refine Or.inl ?_
        by_cases htext : marks text = []
        · have hr : c ≠ '\r' := fun hr => hjoins ⟨hr, htext⟩
          rw [htext]
          unfold consMark
          rw [if_neg hr, if_neg hr]
          split <;> rfl
        · exact consMark_append c (Or.inl htext)
    · refine Or.inr ⟨consMark c front, ?_, ?_⟩
      · rw [htext]
        exact consMark_append c (Or.inr (by simp))
      · rw [ih]
        exact consMark_append c (Or.inr (by simp))

theorem head?_marks_cr (text : List Char) :
    (marks ('\r' :: text)).head? ≠ some (.lineBreak .lf) := by
  rw [marks_cons]
  unfold consMark
  rw [if_pos rfl]
  split <;> simp

/-- The first lone carriage return of a text. -/
theorem exists_lone_cr {text : List Char} (h : .cr ∈ breaks text) :
    ∃ above below, text = above ++ '\r' :: below ∧ below.head? ≠ some '\n' ∧ .cr ∉ breaks above := by
  obtain ⟨front, back, hmarks, hfront⟩ := List.eq_append_cons_of_mem (mem_breaks.1 h)
  have habove : marks (textOf front) = front := by
    refine marks_textOf fun m hm => ?_
    cases m with
    | lineBreak b =>
      rintro rfl
      exact hfront hm
    | char c =>
      have hmem : .char c ∈ marks text := by
        rw [hmarks]
        exact List.mem_append_left _ hm
      exact stands_of_mem_marks hmem
  have htext : text = textOf front ++ '\r' :: textOf back := by
    rw [← textOf_marks text, hmarks, textOf_append]
    rfl
  refine ⟨textOf front, textOf back, htext, fun hlf => ?_, ?_⟩
  · -- With a line feed after it, it would have been read as `\r\n`.
    obtain ⟨below, hbelow⟩ := List.head?_eq_some_iff.1 hlf
    have hcrlf : marks ('\r' :: '\n' :: below) = .lineBreak .crlf :: marks below := rfl
    rw [hbelow] at htext
    rw [htext, marks_append _ (by rw [hcrlf]; simp), habove, hcrlf] at hmarks
    cases (List.cons.inj (List.append_cancel_left hmarks)).1
  · rw [mem_breaks, habove]
    exact hfront

/-! ### Converting -/

theorem stands_withEnding {text : List Char} (target : Ending) :
    ∀ m ∈ (marks text).map (Mark.withEnding target), m.Stands := by
  intro m hm
  obtain ⟨m', hm', rfl⟩ := List.mem_map.1 hm
  cases m' with
  | lineBreak b => exact target.toBreak_ne_cr
  | char c => exact stands_of_mem_marks hm'

theorem marks_convert (target : Ending) (text : List Char) :
    marks (convert target text) = (marks text).map (Mark.withEnding target) :=
  marks_textOf (stands_withEnding target)

theorem convert_append (target : Ending) (text : List Char) {rest : List Char}
    (h : (marks rest).head? ≠ some (.lineBreak .lf)) :
    convert target (text ++ rest) = convert target text ++ convert target rest := by
  rw [convert, marks_append text h, List.map_append, textOf_append]
  rfl

theorem mem_breaks_convert {target : Ending} {text : List Char} {b : Break}
    (h : b ∈ breaks (convert target text)) : b = target.toBreak := by
  rw [mem_breaks, marks_convert] at h
  obtain ⟨m, -, hm⟩ := List.mem_map.1 h
  cases m with
  | lineBreak b' => exact (Mark.lineBreak.inj hm).symm
  | char c => cases hm

theorem isUniform_iff {target : Ending} {text : List Char} :
    (Counts.ofText text).isUniform target = true ↔ ∀ b ∈ breaks text, b = target.toBreak := by
  have hcount : ∀ b, (breaks text).count b = 0 ↔ b ∉ breaks text := fun b => List.count_eq_zero
  cases target with
  | lf =>
    simp only [Counts.isUniform, Counts.ofText, Bool.and_eq_true, beq_iff_eq, hcount]
    constructor
    · rintro ⟨hcrlf, hcr⟩ b hb
      cases b with
      | lf => rfl
      | crlf => exact absurd hb hcrlf
      | cr => exact absurd hb hcr
    · intro h
      exact ⟨fun hb => (by cases h _ hb), fun hb => (by cases h _ hb)⟩
  | crlf =>
    simp only [Counts.isUniform, Counts.ofText, Bool.and_eq_true, beq_iff_eq, hcount]
    constructor
    · rintro ⟨hlf, hcr⟩ b hb
      cases b with
      | lf => exact absurd hb hlf
      | crlf => rfl
      | cr => exact absurd hb hcr
    · intro h
      exact ⟨fun hb => (by cases h _ hb), fun hb => (by cases h _ hb)⟩

theorem isUniform_convert (target : Ending) (text : List Char) :
    (Counts.ofText (convert target text)).isUniform target = true :=
  isUniform_iff.2 fun _ => mem_breaks_convert

theorem cr_not_mem_of_isUniform {target : Ending} {text : List Char}
    (h : (Counts.ofText text).isUniform target = true) : .cr ∉ breaks text :=
  fun hcr => target.toBreak_ne_cr (isUniform_iff.1 h _ hcr).symm

/-! ### Terminating -/

/-- A text is terminated when nothing or a line break with an `\n` is its last mark. -/
theorem isTerminated_iff {text : List Char} :
    isTerminated text = true ↔
      marks text = [] ∨ ∃ front b, marks text = front ++ [.lineBreak b] ∧ b ≠ .cr := by
  have htext := textOf_marks text
  rcases List.eq_nil_or_concat (marks text) with hms | ⟨front, m, hms⟩
  · rw [hms] at htext
    rw [← htext]
    exact ⟨fun _ => Or.inl rfl, fun _ => rfl⟩
  · rw [List.concat_eq_append] at hms
    rw [hms, textOf_append] at htext
    have hm : textOf [m] = m.characters := List.append_nil _
    have hne : m.characters ≠ [] := by
      cases m with
      | lineBreak b => cases b <;> simp [Mark.characters, Break.characters]
      | char c => simp [Mark.characters]
    -- What the text ends with is what its last mark ends with.
    have hlast : isTerminated text = true ↔ m.characters.getLast? = some '\n' := by
      rw [hm] at htext
      rw [← htext, isTerminated, List.getLast?_append_of_ne_nil _ hne]
      simp [hne]
    rw [hlast, hms]
    cases m with
    | lineBreak b =>
      rw [Mark.characters, Break.getLast?_characters]
      cases b <;> simp
    | char c =>
      have hmem : .char c ∈ marks text := by simp [hms]
      have hc : c ≠ '\n' := (stands_of_mem_marks hmem).2
      simp [Mark.characters, hc]

theorem isTerminated_convert (target : Ending) {text : List Char} (h : isTerminated text = true) :
    isTerminated (convert target text) = true := by
  rw [isTerminated_iff, marks_convert]
  rcases isTerminated_iff.1 h with h | ⟨front, b, h, -⟩
  · exact Or.inl (by rw [h]; rfl)
  · refine Or.inr ⟨front.map (Mark.withEnding target), target.toBreak, ?_, target.toBreak_ne_cr⟩
    rw [h, List.map_append]
    rfl

theorem isTerminated_terminate (ending : Ending) (text : List Char) :
    isTerminated (terminate ending text) = true := by
  rw [terminate]
  split
  · assumption
  · cases ending <;> simp [isTerminated, Ending.characters]

/-- One line break more, in a text that needs one. -/
theorem marks_terminate (ending : Ending) {text : List Char} (hcr : .cr ∉ breaks text)
    (h : isTerminated text = false) :
    marks (terminate ending text) = marks text ++ [.lineBreak ending.toBreak] := by
  rw [terminate, h, if_neg Bool.false_ne_true]
  cases ending with
  | crlf => exact marks_append text (by decide)
  | lf =>
    rcases marks_snoc_lf text with hmarks | ⟨front, hfront, -⟩
    · exact hmarks
    · have hmem : .lineBreak .cr ∈ marks text := by simp [hfront]
      exact absurd (mem_breaks.2 hmem) hcr

theorem isUniform_terminate {ending : Ending} {text : List Char}
    (h : (Counts.ofText text).isUniform ending = true) :
    (Counts.ofText (terminate ending text)).isUniform ending = true := by
  cases hterminated : isTerminated text with
  | true => rwa [terminate, hterminated, if_pos rfl]
  | false =>
    rw [isUniform_iff]
    intro b hb
    rw [mem_breaks, marks_terminate ending (cr_not_mem_of_isUniform h) hterminated] at hb
    rcases List.mem_append.1 hb with hb | hb
    · exact isUniform_iff.1 h b (mem_breaks.2 hb)
    · exact Mark.lineBreak.inj (List.mem_singleton.1 hb)

/-! ### What is not touched -/

/-- The characters of a text that belong to no line break. -/
def lettersOf (text : List Char) : List Char :=
  text.filter fun c => c != '\r' && c != '\n'

theorem lettersOf_append (text rest : List Char) :
    lettersOf (text ++ rest) = lettersOf text ++ lettersOf rest :=
  List.filter_append ..

theorem lettersOf_convert (target : Ending) (text : List Char) :
    lettersOf (convert target text) = lettersOf text := by
  have hmarks : ∀ ms : List Mark,
      lettersOf (textOf (ms.map (Mark.withEnding target))) = lettersOf (textOf ms) := by
    intro ms
    induction ms with
    | nil => rfl
    | cons m ms ih =>
      show lettersOf ((m.withEnding target).characters ++ textOf (ms.map (Mark.withEnding target))) =
        lettersOf (m.characters ++ textOf ms)
      rw [lettersOf_append, lettersOf_append, ih]
      cases m with
      | lineBreak b => cases b <;> cases target <;> rfl
      | char c => rfl
  rw [convert, hmarks, textOf_marks]

theorem lettersOf_terminate (ending : Ending) (text : List Char) :
    lettersOf (terminate ending text) = lettersOf text := by
  have hending : lettersOf ending.characters = [] := by
    cases ending <;> rfl
  rw [terminate]
  split
  · rfl
  · rw [lettersOf_append, hending, List.append_nil]

/-! ### The number of line breaks -/

/-- The number of all line breaks. -/
def Counts.total (counts : Counts) : Nat :=
  counts.lf + counts.crlf + counts.cr

/-- Whether a mark is a line break. -/
def Mark.isBreak : Mark → Bool
  | .lineBreak _ => true
  | .char _ => false

theorem total_ofText (text : List Char) :
    (Counts.ofText text).total = (marks text).countP Mark.isBreak := by
  show (breaks text).count .lf + (breaks text).count .crlf + (breaks text).count .cr = _
  rw [breaks]
  generalize marks text = ms
  induction ms with
  | nil => rfl
  | cons m ms ih =>
    cases m with
    | char c => exact ih
    | lineBreak b =>
      -- One of the three counts goes up with the count of all.
      simp only [List.filterMap_cons, List.count_cons, List.countP_cons, Mark.isBreak, if_true, ← ih]
      cases b <;> simp <;> omega

theorem total_convert (target : Ending) (text : List Char) :
    (Counts.ofText (convert target text)).total = (Counts.ofText text).total := by
  have hsame : Mark.isBreak ∘ Mark.withEnding target = Mark.isBreak := by
    funext m
    cases m <;> rfl
  rw [total_ofText, total_ofText, marks_convert, List.countP_map, hsame]

theorem le_total_terminate (ending : Ending) (text : List Char) :
    (Counts.ofText text).total ≤ (Counts.ofText (terminate ending text)).total ∧
      (Counts.ofText (terminate ending text)).total ≤ (Counts.ofText text).total + 1 := by
  have hsnoc : ∀ ms b, List.countP Mark.isBreak (ms ++ [.lineBreak b]) =
      List.countP Mark.isBreak ms + 1 := fun ms b => by rw [List.countP_append]; rfl
  rw [total_ofText, total_ofText, terminate]
  split
  · omega
  · cases ending with
    | crlf =>
      have hmarks : marks (text ++ ['\r', '\n']) = marks text ++ [.lineBreak .crlf] :=
        marks_append text (by decide)
      rw [Ending.characters, hmarks, hsnoc]
      omega
    | lf =>
      rw [Ending.characters]
      rcases marks_snoc_lf text with hmarks | ⟨front, hfront, hmarks⟩
      · rw [hmarks, hsnoc]
        omega
      · rw [hmarks, hfront, hsnoc, hsnoc]
        omega

/-! ### Respelled texts -/

/-- Whether a text differs from an earlier one in its line breaks alone, and has as many of them or one
more. -/
structure Respelled (old new : List Char) : Prop where
  letters : lettersOf new = lettersOf old
  notFewer : (Counts.ofText old).total ≤ (Counts.ofText new).total
  atMostOneMore : (Counts.ofText new).total ≤ (Counts.ofText old).total + 1

theorem Respelled.refl (text : List Char) : Respelled text text :=
  ⟨rfl, Nat.le_refl _, Nat.le_succ _⟩

theorem respelled_convert (target : Ending) (text : List Char) :
    Respelled text (convert target text) := by
  have htotal := total_convert target text
  exact ⟨lettersOf_convert target text, Nat.le_of_eq htotal.symm, by omega⟩

/-- A line ending may be added to what has been converted, or to the text as it is. -/
theorem respelled_terminate (ending : Ending) {old text : List Char}
    (hletters : lettersOf text = lettersOf old)
    (htotal : (Counts.ofText text).total = (Counts.ofText old).total) :
    Respelled old (terminate ending text) := by
  obtain ⟨hle, hle'⟩ := le_total_terminate ending text
  rw [htotal] at hle hle'
  exact ⟨(lettersOf_terminate ending text).trans hletters, hle, hle'⟩

end LineEndings

/-
What a properties file says about a path: the last line that applies.

`Reads` is the grammar of a line, and `readLine` follows it (`reads_iff`). Over the lines of a file,
`Applies` says which assignments count for a path: the nearest header above the line must be one whose
patterns match the path, or there must be none. Reading goes from the top and overwrites, and what it
has noted after some lines is what applies last among them (`Follows`), so

* `read_notes_last_applicable` — the assignment noted for a property is the greatest line that applies,
  and the root mark is the last one among the global lines.
-/
import LineEndings.Property.Source
import LineEndings.Proofs.Glob.Matching
import Mathlib.Data.List.Forall2
import Mathlib.Data.List.Induction
import Mathlib.Data.List.TakeWhile

namespace LineEndings.Property

/-! ### Lines -/

/-- Neither a comment nor a header. -/
def IsPlain (line : List Char) : Prop :=
  (∀ c ∈ line.head?, c ≠ '#' ∧ c ≠ ';') ∧ ∀ inner, line ≠ '[' :: (inner ++ [']'])

/-- What a trimmed line says. -/
inductive Reads : List Char → Line → Prop
  | blank : Reads [] .void
  | comment {c : Char} {s : List Char} (h : c = '#' ∨ c = ';') : Reads (c :: s) .void
  | header (inner : List Char) :
      Reads ('[' :: (inner ++ [']'])) (.header (String.ofList (Text.trim inner)))
  | assignment {key value : List Char} (hplain : IsPlain (key ++ '=' :: value)) (hfirst : '=' ∉ key)
      (hkey : Text.trim key ≠ []) :
      Reads (key ++ '=' :: value)
        (.assignment (String.ofList (Text.lowerCase (Text.trim key)))
          (String.ofList (Text.lowerCase (Text.trim value))))
  | keyless {key value : List Char} (hplain : IsPlain (key ++ '=' :: value)) (hfirst : '=' ∉ key)
      (hkey : Text.trim key = []) : Reads (key ++ '=' :: value) .void
  | other {line : List Char} (hplain : IsPlain line) (hnone : '=' ∉ line) : Reads line .void

theorem headerText?_eq_some_iff {line inner : List Char} :
    headerText? line = some inner ↔ line = '[' :: (inner ++ [']']) := by
  constructor
  · intro h
    unfold headerText? at h
    split at h
    · rename_i s
      split at h
      · rename_i hlast
        obtain ⟨front, rfl⟩ := List.getLast?_eq_some_iff.1 hlast
        obtain rfl := Option.some.inj h
        rw [List.dropLast_concat]
      · cases h
    · cases h
  · rintro rfl
    simp [headerText?]

theorem headerText?_eq_none {line : List Char} (h : IsPlain line) : headerText? line = none := by
  cases hinner : headerText? line with
  | none => rfl
  | some inner => exact absurd (headerText?_eq_some_iff.1 hinner) (h.2 inner)

/-- The parts of a line before and after its first `=`. -/
theorem cut_at_first {key value : List Char} (h : '=' ∉ key) :
    (key ++ '=' :: value).takeWhile (· != '=') = key ∧
      (key ++ '=' :: value).dropWhile (· != '=') = '=' :: value := by
  have hkey : ∀ c ∈ key, (c != '=') = true := by
    intro c hc
    rw [bne_iff_ne]
    rintro rfl
    exact h hc
  constructor
  · rw [List.takeWhile_append_of_pos hkey, List.takeWhile_cons_of_neg (by simp), List.append_nil]
  · rw [List.dropWhile_append_of_pos hkey, List.dropWhile_cons_of_neg (by simp)]

/-- What is neither a comment nor a header is read as an assignment. -/
theorem readLine_of_plain {raw : List Char} (h : IsPlain (Text.trim raw)) :
    readLine raw = readAssignment (Text.trim raw) := by
  obtain ⟨hcomment, -⟩ := id h
  have hheader := headerText?_eq_none h
  rw [readLine]
  cases htrim : Text.trim raw with
  | nil => rfl
  | cons c s =>
    rw [htrim] at hcomment hheader
    have hc := hcomment c rfl
    simp only [List.head?_cons, hheader]
    split <;> simp_all

theorem readLine_eq_of_reads {raw : List Char} {line : Line} (h : Reads (Text.trim raw) line) :
    readLine raw = line := by
  generalize htrim : Text.trim raw = trimmed at h
  cases h with
  | blank => simp [readLine, htrim]
  | comment h => rcases h with rfl | rfl <;> simp [readLine, htrim]
  | header inner => simp [readLine, htrim, headerText?]
  | assignment hplain hfirst hkey =>
    rw [readLine_of_plain (htrim ▸ hplain), htrim, readAssignment, (cut_at_first hfirst).1,
      (cut_at_first hfirst).2]
    simp [hkey]
  | keyless hplain hfirst hkey =>
    rw [readLine_of_plain (htrim ▸ hplain), htrim, readAssignment, (cut_at_first hfirst).1,
      (cut_at_first hfirst).2]
    simp [hkey]
  | other hplain hnone =>
    rw [readLine_of_plain (htrim ▸ hplain), htrim, readAssignment, List.dropWhile_eq_nil_iff.2 ?_]
    intro c hc
    rw [bne_iff_ne]
    rintro rfl
    exact hnone hc

/-- The grammar leaves no line out. -/
theorem exists_reads (line : List Char) : ∃ said, Reads line said := by
  by_cases hplain : IsPlain line
  · by_cases hmem : '=' ∈ line
    · obtain ⟨key, value, rfl, hfirst⟩ := List.eq_append_cons_of_mem hmem
      by_cases hkey : Text.trim key = []
      · exact ⟨.void, .keyless hplain hfirst hkey⟩
      · exact ⟨_, .assignment hplain hfirst hkey⟩
    · exact ⟨.void, .other hplain hmem⟩
  · by_cases hheader : ∃ inner, line = '[' :: (inner ++ [']'])
    · obtain ⟨inner, rfl⟩ := hheader
      exact ⟨_, .header inner⟩
    · -- What keeps it from being plain is then the character it starts with.
      cases line with
      | nil => exact ⟨.void, .blank⟩
      | cons c s =>
        refine ⟨.void, .comment ?_⟩
        by_contra hc
        refine hplain ⟨fun d hd => ?_, fun inner he => hheader ⟨inner, he⟩⟩
        obtain rfl := Option.some.inj hd
        exact not_or.1 hc

/-- A line says one thing, the one that is read. -/
theorem reads_iff {raw : List Char} {line : Line} :
    Reads (Text.trim raw) line ↔ readLine raw = line := by
  constructor
  · exact readLine_eq_of_reads
  · rintro rfl
    obtain ⟨said, hsaid⟩ := exists_reads (Text.trim raw)
    rwa [readLine_eq_of_reads hsaid]

/-! ### Sections -/

/-- Whether the nearest header in the lines above is the one given, or none of them is a header. -/
def InSection (above : List Line) : Option String → Prop
  | none => ∀ text, .header text ∉ above
  | some text => ∃ front back, above = front ++ .header text :: back ∧ ∀ other, .header other ∉ back

/-- Whether the lines under a header bear on a path: one of its patterns must match. Lines under no
header bear on every path. -/
def Bears (path : String) (header? : Option String) : Prop :=
  ∀ header ∈ header?, ∃ pattern ∈ Glob.splitPatterns header,
    (Glob.Pattern.compile pattern).matches path = true

theorem inSection_header (above : List Line) (text : String) :
    InSection (above ++ [.header text]) (some text) :=
  ⟨above, [], rfl, by simp⟩

theorem inSection_snoc {above : List Line} {line : Line} {header? : Option String}
    (hline : ∀ text, line ≠ .header text) (h : InSection above header?) :
    InSection (above ++ [line]) header? := by
  cases header? with
  | none =>
    intro text hmem
    rcases List.mem_append.1 hmem with hmem | hmem
    · exact h text hmem
    · exact hline text (List.mem_singleton.1 hmem).symm
  | some text =>
    obtain ⟨front, back, rfl, hback⟩ := h
    refine ⟨front, back ++ [line], by simp, ?_⟩
    intro other hmem
    rcases List.mem_append.1 hmem with hmem | hmem
    · exact hback other hmem
    · exact hline other (List.mem_singleton.1 hmem).symm

/-- There is only one nearest header. -/
theorem inSection_unique {above : List Line} {header? other? : Option String}
    (h : InSection above header?) (h' : InSection above other?) : header? = other? := by
  cases header? with
  | none =>
    cases other? with
    | none => rfl
    | some text =>
      obtain ⟨front, back, rfl, -⟩ := h'
      exact absurd (by simp) (h text)
  | some text =>
    obtain ⟨front, back, rfl, hback⟩ := h
    cases other? with
    | none => exact absurd (by simp) (h' text)
    | some text' =>
      obtain ⟨front', back', heq, hback'⟩ := h'
      -- Neither header can stand among the lines that follow the other.
      rcases List.append_eq_append_iff.1 heq with ⟨mid, -, hmid⟩ | ⟨mid, -, hmid⟩
      · cases mid with
        | nil =>
          obtain ⟨htext, -⟩ := List.cons.inj hmid
          rw [Line.header.inj htext]
        | cons _ mid =>
          obtain ⟨-, rfl⟩ := List.cons.inj hmid
          exact absurd (by simp) (hback text')
      · cases mid with
        | nil =>
          obtain ⟨htext, -⟩ := List.cons.inj hmid
          rw [Line.header.inj htext]
        | cons _ mid =>
          obtain ⟨-, rfl⟩ := List.cons.inj hmid
          exact absurd (by simp) (hback' text)

theorem applies_iff_bears (path : String) (header? : Option String) :
    applies (header?.map (Section.ofHeader path)) = true ↔ Bears path header? := by
  cases header? with
  | none => simp [applies, Bears]
  | some header => simp [applies, Bears, Section.ofHeader, Glob.PatternSet.matches_ofList]

/-! ### Assignments that apply -/

/-- Where an element stands in a list with one more at its end: it is the new one, or it stood there. -/
theorem snoc_eq_split {α : Type} {l above below : List α} {a b : α} :
    l ++ [a] = above ++ b :: below ↔
      (l = above ∧ a = b ∧ below = []) ∨ ∃ rest, l = above ++ b :: rest ∧ below = rest ++ [a] := by
  constructor
  · intro heq
    rcases List.eq_nil_or_concat below with rfl | ⟨rest, last, rfl⟩
    · obtain ⟨rfl, hlast⟩ := List.append_inj' heq rfl
      exact Or.inl ⟨rfl, List.singleton_inj.1 hlast, rfl⟩
    · rw [List.concat_eq_append, ← List.cons_append, ← List.append_assoc] at heq
      obtain ⟨rfl, hlast⟩ := List.append_inj' heq rfl
      exact Or.inr ⟨rest, rfl, by rw [List.concat_eq_append, List.singleton_inj.1 hlast]⟩
  · rintro (⟨rfl, rfl, rfl⟩ | ⟨rest, rfl, rfl⟩)
    · rfl
    · simp

section

variable {schema : Schema} {path : String} {lines : List Line} {key : String}

/-- Whether a line assigns a property so that it counts for a path: the property is one that is
understood, and the section of the line bears on the path. -/
def Applies (schema : Schema) (path : String) (lines : List Line) (key : String)
    (a : Assignment) : Prop :=
  ∃ above below, lines = above ++ .assignment key a.value :: below ∧ a.line = above.length + 1 ∧
    key ≠ "root" ∧ schema.recognizes key a.value = true ∧
    InSection above a.header? ∧ Bears path a.header?

/-- Whether an assignment applies and none below it does. -/
def LastApplies (schema : Schema) (path : String) (lines : List Line) (key : String)
    (a : Assignment) : Prop :=
  Applies schema path lines key a ∧ ∀ b, Applies schema path lines key b → b.line ≤ a.line

theorem Applies.line_le {a : Assignment} (h : Applies schema path lines key a) :
    a.line ≤ lines.length := by
  obtain ⟨above, below, rfl, hline, -⟩ := h
  rw [hline, List.length_append, List.length_cons]
  omega

/-- What applies in one line more: what applied, and the new line if it does. -/
theorem applies_snoc {line : Line} {a : Assignment} :
    Applies schema path (lines ++ [line]) key a ↔
      Applies schema path lines key a ∨
        line = .assignment key a.value ∧ a.line = lines.length + 1 ∧ key ≠ "root" ∧
          schema.recognizes key a.value = true ∧ InSection lines a.header? ∧ Bears path a.header? := by
  constructor
  · rintro ⟨above, below, heq, hline, hrest⟩
    rcases snoc_eq_split.1 heq with ⟨rfl, rfl, -⟩ | ⟨rest, rfl, -⟩
    · exact Or.inr ⟨rfl, hline, hrest⟩
    · exact Or.inl ⟨above, rest, rfl, hline, hrest⟩
  · rintro (⟨above, below, rfl, hrest⟩ | ⟨rfl, hline, hrest⟩)
    · exact ⟨above, below ++ [line], by simp, hrest⟩
    · exact ⟨lines, [], rfl, hline, hrest⟩

/-- A line that applies to nothing leaves what applies last as it is. -/
theorem lastApplies_snoc_of_not {line : Line} {a : Assignment}
    (h : ∀ b : Assignment, line = .assignment key b.value → key ≠ "root" →
      schema.recognizes key b.value = true → InSection lines b.header? → ¬ Bears path b.header?) :
    LastApplies schema path (lines ++ [line]) key a ↔ LastApplies schema path lines key a := by
  have hsame : ∀ b, Applies schema path (lines ++ [line]) key b ↔ Applies schema path lines key b := by
    intro b
    rw [applies_snoc]
    refine ⟨?_, Or.inl⟩
    rintro (hb | ⟨hline, -, hroot, hknown, hsection, hbears⟩)
    · exact hb
    · exact absurd hbears (h b hline hroot hknown hsection)
  simp only [LastApplies, hsame]

/-- A line that applies is the last one that does. -/
theorem lastApplies_snoc_self {value : String} {header? : Option String} {a : Assignment}
    (hroot : key ≠ "root") (hknown : schema.recognizes key value = true)
    (hsection : InSection lines header?) (hbears : Bears path header?) :
    LastApplies schema path (lines ++ [.assignment key value]) key a ↔
      a = ⟨value, header?, lines.length + 1⟩ := by
  have hnew : Applies schema path (lines ++ [.assignment key value]) key
      ⟨value, header?, lines.length + 1⟩ :=
    applies_snoc.2 (Or.inr ⟨rfl, rfl, hroot, hknown, hsection, hbears⟩)
  constructor
  · rintro ⟨ha, hlast⟩
    rcases applies_snoc.1 ha with hold | ⟨hline, hnumber, -, -, hsection', -⟩
    · have h₁ := hold.line_le
      have h₂ := hlast _ hnew
      simp only at h₂
      omega
    · obtain ⟨-, hvalue⟩ := Line.assignment.inj hline
      obtain ⟨value', header?', line'⟩ := a
      obtain rfl := inSection_unique hsection hsection'
      simp only at hvalue hnumber
      rw [hvalue, hnumber]
  · rintro rfl
    refine ⟨hnew, fun b hb => ?_⟩
    have := hb.line_le
    rwa [List.length_append, List.length_singleton] at this

end

/-! ### The root mark -/

/-- Whether a line is a header. -/
def Line.isHeader : Line → Bool
  | .header _ => true
  | _ => false

/-- The lines above the first header. -/
def globals (lines : List Line) : List Line :=
  lines.takeWhile (!·.isHeader)

/-- Whether the last of the lines that set the root mark, among the global ones, says `true`. -/
def HasRootMark (lines : List Line) : Prop :=
  ∃ above below, globals lines = above ++ .assignment "root" "true" :: below ∧
    ∀ value, .assignment "root" value ∉ below

theorem isHeader_eq_false_iff {line : Line} :
    line.isHeader = false ↔ ∀ text, line ≠ .header text := by
  cases line <;> simp [Line.isHeader]

/-- Without a header every line is global. -/
theorem globals_of_inSection_none {lines : List Line} (h : InSection lines none) :
    globals lines = lines := by
  refine List.takeWhile_eq_self_iff.2 fun line hline => ?_
  rw [Bool.not_eq_true', isHeader_eq_false_iff]
  rintro text rfl
  exact h text hline

/-- Under a header no line is global. -/
theorem globals_append_of_inSection_some {lines : List Line} {text : String}
    (h : InSection lines (some text)) (more : List Line) :
    globals (lines ++ more) = globals lines := by
  obtain ⟨front, back, rfl, -⟩ := h
  have hfront : ∀ rest : List Line,
      globals (front ++ .header text :: rest) = globals front := by
    intro rest
    rw [globals]
    rw [List.takeWhile_append]
    split
    · rename_i hlen
      rw [List.takeWhile_cons_of_neg (by simp [Line.isHeader]), List.append_nil]
      exact ((List.takeWhile_prefix _).eq_of_length hlen).symm
    · rfl
  rw [List.append_assoc, List.cons_append, hfront, hfront]

theorem hasRootMark_congr {lines other : List Line} (h : globals lines = globals other) :
    HasRootMark lines ↔ HasRootMark other := by
  rw [HasRootMark, HasRootMark, h]

/-- A global line that sets the root mark decides. -/
theorem hasRootMark_snoc_root {lines : List Line} (h : InSection lines none) (value : String) :
    HasRootMark (lines ++ [.assignment "root" value]) ↔ value = "true" := by
  have hsnoc : InSection (lines ++ [.assignment "root" value]) none := inSection_snoc (by simp) h
  have hglobals := globals_of_inSection_none hsnoc
  constructor
  · rintro ⟨above, below, heq, hbelow⟩
    rw [hglobals] at heq
    rcases snoc_eq_split.1 heq with ⟨-, hline, -⟩ | ⟨rest, -, rfl⟩
    · exact (Line.assignment.inj hline).2
    · exact absurd (by simp) (hbelow value)
  · rintro rfl
    exact ⟨lines, [], hglobals, by simp⟩

/-- Other lines leave the mark as it is. -/
theorem hasRootMark_snoc_of_ne {lines : List Line} {line : Line} {header? : Option String}
    (h : InSection lines header?) (hline : header? = none → ∀ value, line ≠ .assignment "root" value) :
    HasRootMark (lines ++ [line]) ↔ HasRootMark lines := by
  cases header? with
  | some text => exact hasRootMark_congr (globals_append_of_inSection_some h [line])
  | none =>
    cases hheader : line.isHeader with
    | true =>
      refine hasRootMark_congr ?_
      have hall := globals_of_inSection_none h
      unfold globals at hall ⊢
      rw [List.takeWhile_append, if_pos (by rw [hall]), List.takeWhile_cons_of_neg (by simp [hheader]),
        List.append_nil, hall]
    | false =>
      have hsnoc := inSection_snoc (isHeader_eq_false_iff.1 hheader) h
      rw [HasRootMark, HasRootMark, globals_of_inSection_none h, globals_of_inSection_none hsnoc]
      constructor
      · rintro ⟨above, below, heq, hbelow⟩
        rcases snoc_eq_split.1 heq with ⟨-, hlast, -⟩ | ⟨rest, rfl, rfl⟩
        · exact absurd hlast (hline rfl "true")
        · exact ⟨above, rest, rfl, fun value hmem => hbelow value (List.mem_append_left _ hmem)⟩
      · rintro ⟨above, below, rfl, hbelow⟩
        refine ⟨above, below ++ [line], by simp, fun value hmem => ?_⟩
        rcases List.mem_append.1 hmem with hmem | hmem
        · exact hbelow value hmem
        · exact hline rfl value (List.mem_singleton.1 hmem).symm

/-! ### Reading from the top -/

section

variable {schema : Schema} {path : String}

/-- What holds when some lines have been read: the section is that of the next line, and what has been
noted is what applies last so far. -/
structure Follows (schema : Schema) (path : String) (lines : List Line)
    (state : Option Section × Source) : Prop where
  current : ∃ header?, InSection lines header? ∧ state.1 = header?.map (Section.ofHeader path)
  assignments : ∀ key a, state.2.assignments[key]? = some a ↔ LastApplies schema path lines key a
  root : state.2.root = true ↔ HasRootMark lines

theorem follows_nil : Follows schema path [] (none, ⟨false, ∅⟩) where
  current := ⟨none, fun _ => List.not_mem_nil, rfl⟩
  assignments key a := by simp [LastApplies, Applies]
  root := by simp [HasRootMark, globals]

/-- One more line. -/
theorem Follows.step {lines : List Line} {state : Option Section × Source}
    (h : Follows schema path lines state) (line : Line) :
    Follows schema path (lines ++ [line])
      (Source.step schema path state (line, lines.length + 1)) := by
  obtain ⟨current?, source⟩ := state
  obtain ⟨⟨header?, hsection, hcurrent⟩, hassign, hroot⟩ := h
  simp only at hcurrent hassign hroot
  cases line with
  | void =>
    exact ⟨⟨header?, inSection_snoc (by simp) hsection, hcurrent⟩,
      fun key a => (hassign key a).trans (lastApplies_snoc_of_not (by simp)).symm,
      hroot.trans (hasRootMark_snoc_of_ne hsection (by simp)).symm⟩
  | header text =>
    exact ⟨⟨some text, inSection_header lines text, rfl⟩,
      fun key a => (hassign key a).trans (lastApplies_snoc_of_not (by simp)).symm,
      hroot.trans (hasRootMark_snoc_of_ne hsection (by simp)).symm⟩
  | assignment key value =>
    have hnext : InSection (lines ++ [.assignment key value]) header? :=
      inSection_snoc (by simp) hsection
    by_cases hkey : key = "root"
    · subst hkey
      have hsame : ∀ key a, source.assignments[key]? = some a ↔
          LastApplies schema path (lines ++ [.assignment "root" value]) key a := by
        intro key a
        refine (hassign key a).trans (lastApplies_snoc_of_not ?_).symm
        rintro b hline hne
        exact absurd (Line.assignment.inj hline).1.symm hne
      cases header? with
      | none =>
        obtain rfl : current? = none := hcurrent
        refine ⟨⟨none, hnext, rfl⟩, hsame, ?_⟩
        rw [hasRootMark_snoc_root hsection]
        simp [Source.step]
      | some text =>
        obtain rfl : current? = some (Section.ofHeader path text) := hcurrent
        exact ⟨⟨some text, hnext, rfl⟩, hsame,
          hroot.trans (hasRootMark_snoc_of_ne hsection (by simp)).symm⟩
    · have hmark : source.root = true ↔ HasRootMark (lines ++ [.assignment key value]) :=
        hroot.trans (hasRootMark_snoc_of_ne hsection
          fun _ _ he => hkey (Line.assignment.inj he).1).symm
      by_cases hcounts : applies current? = true ∧ schema.recognizes key value = true
      · obtain ⟨happlies, hknown⟩ := hcounts
        have hbears : Bears path header? := (applies_iff_bears path header?).1 (hcurrent ▸ happlies)
        have hheader : current?.map (·.header) = header? := by
          subst hcurrent
          cases header? <;> rfl
        have hstep : Source.step schema path (current?, source) (.assignment key value, lines.length + 1) =
            (current?, { source with assignments :=
              source.assignments.insert key ⟨value, header?, lines.length + 1⟩ }) := by
          simp [Source.step, hkey, happlies, hknown, hheader]
        rw [hstep]
        refine ⟨⟨header?, hnext, hcurrent⟩, fun key' a => ?_, hmark⟩
        simp only [Std.TreeMap.getElem?_insert, Std.LawfulEqCmp.compare_eq_iff_eq]
        by_cases hsame : key = key'
        · subst hsame
          rw [if_pos rfl, lastApplies_snoc_self hkey hknown hsection hbears, Option.some_inj, eq_comm]
        · rw [if_neg hsame, hassign]
          refine (lastApplies_snoc_of_not ?_).symm
          rintro b hline
          exact absurd (Line.assignment.inj hline).1 hsame
      · have hstep : Source.step schema path (current?, source)
            (.assignment key value, lines.length + 1) = (current?, source) := by
          rw [← Bool.and_eq_true] at hcounts
          simp [Source.step, hkey, hcounts]
        rw [hstep]
        refine ⟨⟨header?, hnext, hcurrent⟩, fun key' a => ?_, hmark⟩
        refine (hassign key' a).trans (lastApplies_snoc_of_not ?_).symm
        intro b hline _ hknown hsection' hbears
        obtain ⟨rfl, rfl⟩ := Line.assignment.inj hline
        obtain rfl := inSection_unique hsection hsection'
        exact hcounts ⟨hcurrent ▸ (applies_iff_bears path _).2 hbears, hknown⟩

theorem follows_run (lines : List Line) : Follows schema path lines
    ((lines.zipIdx 1).foldl (Source.step schema path) (none, ⟨false, ∅⟩)) := by
  induction lines using List.reverseRecOn with
  | nil => exact follows_nil
  | append_singleton lines line ih =>
    rw [List.zipIdx_append, List.foldl_append, Nat.add_comm 1]
    exact ih.step line

theorem follows_read (schema : Schema) (path contents : String) :
    (∀ key a, (Source.read schema path contents).assignments[key]? = some a ↔
        LastApplies schema path (readLines contents) key a) ∧
      ((Source.read schema path contents).root = true ↔ HasRootMark (readLines contents)) :=
  ⟨(follows_run (readLines contents)).assignments, (follows_run (readLines contents)).root⟩

/-- What a file says about a path. Its lines are what the grammar reads between the line feeds, a byte
order mark at the start left out; of the assignments to a property, the last one that applies is
noted, with its value, its section and the number of its line; and the root mark is what the last of
the global lines that set it says. -/
theorem read_notes_last_applicable (schema : Schema) (path contents : String) :
    List.Forall₂ (fun raw line => Reads (Text.trim raw) line)
        (Text.pieces '\n' (withoutMark contents.toList)) (readLines contents) ∧
      (∀ key a, (Source.read schema path contents).assignments[key]? = some a ↔
        LastApplies schema path (readLines contents) key a) ∧
      ((Source.read schema path contents).root = true ↔ HasRootMark (readLines contents)) := by
  refine ⟨?_, follows_read schema path contents⟩
  rw [readLines, List.forall₂_map_right_iff, List.forall₂_same]
  exact fun raw _ => reads_iff.2 rfl

end

end LineEndings.Property

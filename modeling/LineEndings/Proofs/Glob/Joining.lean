/-
Patterns put together in a list.

A list of patterns is cut at the commas with nothing open before them. So a pattern stays in one piece, and leaves
nothing open behind it, when its own braces are all closed in it, its commas stand inside of them, and its last
backslash has a character to take with it (`Listable.uncut`). Blanks stay in one piece too, and are trimmed away.

* `splitPatterns_joined` — from such patterns with commas, blanks and empty entries between them, the patterns are
  read again.
-/
import LineEndings.Proofs.Glob.Matching
import LineEndings.Proofs.Glob.Splitting
import LineEndings.Proofs.Text.Trimming

namespace LineEndings.Glob

open Brace

/-! ### Patterns in a list -/

/-- Whether a text ends with a backslash that has no character to take with it. -/
def endsWithLone : List Char → Bool
  | [] => false
  | ['\\'] => true
  | '\\' :: _ :: s => endsWithLone s
  | _ :: s => endsWithLone s

/-- Whether a pattern can stand in a list. -/
structure Listable (pattern : List Char) : Prop where
  ne_nil : pattern ≠ []
  /-- No blank stands at its ends. -/
  trim_eq : Text.trim pattern = pattern
  /-- Every brace that it opens is closed. -/
  strays_eq : strays pattern = []
  /-- Its commas stand inside of braces. -/
  separators_eq : separators pattern = []
  whole : endsWithLone pattern = false

instance (pattern : List Char) : Decidable (Listable pattern) :=
  decidable_of_iff
    (pattern ≠ [] ∧ Text.trim pattern = pattern ∧ strays pattern = [] ∧ separators pattern = [] ∧
      endsWithLone pattern = false)
    ⟨fun ⟨hne, htrim, hstrays, hseparators, hwhole⟩ => ⟨hne, htrim, hstrays, hseparators, hwhole⟩,
      fun ⟨hne, htrim, hstrays, hseparators, hwhole⟩ => ⟨hne, htrim, hstrays, hseparators, hwhole⟩⟩

/-- The entries of a list of patterns: every pattern is one of them, in order and with blanks around it, and the
others are blank. -/
inductive Entries : List String → List (List Char) → Prop
  | nil : Entries [] []
  | blank {patterns : List String} {entries : List (List Char)} {blanks : List Char}
      (hblanks : Text.allBlank blanks = true) (h : Entries patterns entries) : Entries patterns (blanks :: entries)
  | pattern {patterns : List String} {entries : List (List Char)} {pattern : String} {before after : List Char}
      (hbefore : Text.allBlank before = true) (hafter : Text.allBlank after = true) (h : Entries patterns entries) :
      Entries (pattern :: patterns) ((before ++ (pattern.toList ++ after)) :: entries)

namespace Brace

variable {n : Nat} {x : List Placed} {list : List Char}

theorem endsWithLone_single {c : Char} (hc : c ≠ '\\') (s : List Char) :
    endsWithLone (c :: s) = endsWithLone s := by
  rw [endsWithLone]
  · rintro rfl
    exact absurd rfl hc
  · rintro d t rfl
    exact absurd rfl hc

theorem units_of_not_endsWithLone (h : endsWithLone (text x) = false) : Units x := by
  induction x using unitInduction with
  | nil => exact .nil
  | lone i => cases h
  | escape i c s ih => exact .escape (ih h)
  | single c s hc ih =>
    rw [text_cons, endsWithLone_single hc] at h
    exact .single hc (ih h)

/-- Where a text has no comma to cut at, the cut goes on behind it. -/
theorem partsFrom_append_of_not_cutsAt (h : Units x) (hcuts : ∀ c, ¬ CutsAt n x c) (rest : List Placed) :
    partsFrom n (x ++ rest) = prependFirst x (partsFrom (opened n x) rest) := by
  induction h generalizing n with
  | nil => exact (prependFirst_nil n rest).symm
  | escape _ ih =>
    rw [List.cons_append, List.cons_append, partsFrom_escape, ih fun d hd => hcuts d (cutsAt_escape_iff.2 hd),
      prependFirst_prependFirst]
    rfl
  | @single c s hc _ ih =>
    have hcomma : ¬ (c.1 = ',' ∧ n = 0) := fun h => hcuts c ((cutsAt_single_iff hc).2 (Or.inl ⟨rfl, h⟩))
    rw [List.cons_append, partsFrom_single hc, if_neg hcomma, opened_single hc,
      ih fun d hd => hcuts d ((cutsAt_single_iff hc).2 (Or.inr hd)), prependFirst_prependFirst]
    rfl

/-- Without stray braces everything is closed. -/
theorem closesAll_of_strays_eq_nil (h : strays list = []) : ClosesAll list.zipIdx := by
  intro before i after hstarts hnone
  have hstray : i ∈ strays list := by
    refine mem_strays_iff.2 ⟨before, after, hstarts, ?_⟩
    rintro ⟨_, closing⟩ hpair rfl
    rw [← text_zipIdx list] at hpair
    obtain ⟨inside, j, rest, rfl, hinside, -⟩ := (mem_pairs_iff hstarts).1 hpair
    rw [split?_group hinside] at hnone
    cases hnone
  rw [h] at hstray
  cases hstray

/-- Without commas between patterns there is no cut. -/
theorem not_cutsAt_of_separators_eq_nil (h : separators list = []) (c : Placed) : ¬ CutsAt 0 list.zipIdx c := by
  intro hcut
  have hmem := (mem_cuts_iff hcut.mem).2 hcut
  rw [cuts, h] at hmem
  cases hmem

end Brace

variable {patterns : List String} {entries : List (List Char)}

theorem Listable.uncut {pattern : List Char} (h : Listable pattern) : Uncut pattern := by
  have hunits : Units pattern.zipIdx := units_of_not_endsWithLone (by rw [text_zipIdx, h.whole])
  have hopened : opened 0 pattern.zipIdx = 0 :=
    (opened_eq_zero_iff hunits).2 ⟨by simp, closesAll_of_strays_eq_nil h.strays_eq⟩
  have huncut : Uncut (text pattern.zipIdx) := by
    refine uncut_text fun rest => ?_
    rw [parts, partsFrom_append_of_not_cutsAt hunits (not_cutsAt_of_separators_eq_nil h.separators_eq), hopened]
    rfl
  rwa [text_zipIdx] at huncut

theorem uncut_of_allBlank {blanks : List Char} (h : Text.allBlank blanks = true) : Uncut blanks := by
  induction blanks with
  | nil => exact uncut_nil
  | cons c blanks ih =>
    rw [Text.allBlank, List.all_cons, Bool.and_eq_true] at h
    obtain ⟨hc, hblanks⟩ := h
    have hplain : (c ≠ '\\' ∧ c ≠ '{' ∧ c ≠ '}') ∧ c ≠ ',' := by
      refine ⟨⟨?_, ?_, ?_⟩, ?_⟩ <;> rintro rfl <;> exact absurd hc (by decide)
    have hsolid : Solid (placed [c]) := solid_plain hplain.1 hplain.2
    exact hsolid.uncut.append (ih hblanks)

theorem Entries.uncut (h : Entries patterns entries) (hpatterns : ∀ p ∈ patterns, Listable p.toList) :
    ∀ entry ∈ entries, Uncut entry := by
  induction h with
  | nil => simp
  | blank hblanks _ ih => exact List.forall_mem_cons.2 ⟨uncut_of_allBlank hblanks, ih hpatterns⟩
  | pattern hbefore hafter _ ih =>
    obtain ⟨hpattern, hpatterns⟩ := List.forall_mem_cons.1 hpatterns
    refine List.forall_mem_cons.2 ⟨?_, ih hpatterns⟩
    exact (uncut_of_allBlank hbefore).append (hpattern.uncut.append (uncut_of_allBlank hafter))

theorem tidied_cons (part : List Char) (parts : List (List Char)) :
    tidied (part :: parts) =
      if Text.trim part = [] then tidied parts else String.ofList (Text.trim part) :: tidied parts := by
  rw [tidied, List.map_cons, List.filter_cons]
  split <;> simp_all [tidied]

/-- Tidying the entries leaves the patterns. -/
theorem Entries.tidied_eq (h : Entries patterns entries) (hpatterns : ∀ p ∈ patterns, Listable p.toList) :
    tidied entries = patterns := by
  induction h with
  | nil => rfl
  | blank hblanks _ ih => rw [tidied_cons, if_pos (Text.trim_of_allBlank hblanks), ih hpatterns]
  | @pattern patterns entries pattern before after hbefore hafter _ ih =>
    obtain ⟨hpattern, hpatterns⟩ := List.forall_mem_cons.1 hpatterns
    have htrim : Text.trim (before ++ (pattern.toList ++ after)) = pattern.toList := by
      rw [Text.trim_blanks_append hbefore, Text.trim_append_blanks hafter, hpattern.trim_eq]
    rw [tidied_cons, htrim, if_neg hpattern.ne_nil, String.ofList_toList, ih hpatterns]

/-- Patterns that are put together in a list, with any blanks and blank entries between them, are read from it
again, and the set of them matches a path if one of them does. -/
theorem splitPatterns_joined (hentries : Entries patterns entries) (hpatterns : ∀ p ∈ patterns, Listable p.toList) :
    splitPatterns (String.ofList (Text.joined ',' entries)) = patterns ∧
      ∀ path, (PatternSet.ofList (splitPatterns (String.ofList (Text.joined ',' entries)))).matches path = true ↔
        ∃ p ∈ patterns, (Pattern.compile p).matches path = true := by
  have hcut : tidied (cut (Text.joined ',' entries)) = tidied entries := by
    by_cases hne : entries = []
    · -- There is no entry, and one empty part.
      subst hne
      rfl
    · rw [cut_joined hne (hentries.uncut hpatterns)]
  have hsplit : splitPatterns (String.ofList (Text.joined ',' entries)) = patterns := by
    rw [splitPatterns, String.toList_ofList]
    exact hcut.trans (hentries.tidied_eq hpatterns)
  rw [hsplit]
  exact ⟨rfl, fun path => PatternSet.matches_ofList⟩

/-- A group in a group, a closing brace of no group, a brace and a comma behind backslashes, and blank entries. -/
theorem splitPatterns_joined_crowded :
    Entries ["*.{js,{ts,tsx}}", "a\x7db", "\\\x7b\\,c"]
        (["", " *.{js,{ts,tsx}}\t", "  ", "a\x7db", "\\\x7b\\,c\n", ""].map String.toList) ∧
      (∀ p ∈ ["*.{js,{ts,tsx}}", "a\x7db", "\\\x7b\\,c"], Listable p.toList) ∧
      splitPatterns ", *.{js,{ts,tsx}}\t,  ,a\x7db,\\\x7b\\,c\n," =
        ["*.{js,{ts,tsx}}", "a\x7db", "\\\x7b\\,c"] := by
  have hentries : Entries ["*.{js,{ts,tsx}}", "a\x7db", "\\\x7b\\,c"]
      (["", " *.{js,{ts,tsx}}\t", "  ", "a\x7db", "\\\x7b\\,c\n", ""].map String.toList) := by
    refine .blank (by decide) (@Entries.pattern _ _ _ [' '] ['\t'] (by decide) (by decide) ?_)
    refine .blank (by decide) (@Entries.pattern _ _ _ [] [] (by decide) (by decide) ?_)
    exact @Entries.pattern _ _ _ [] ['\n'] (by decide) (by decide) (.blank (by decide) .nil)
  have hpatterns : ∀ p ∈ ["*.{js,{ts,tsx}}", "a\x7db", "\\\x7b\\,c"], Listable p.toList := by decide +kernel
  exact ⟨hentries, hpatterns, (splitPatterns_joined hentries hpatterns).1⟩

end LineEndings.Glob

/-
Trimming.

Blanks that stand around a text make no difference to what is left of it (`trim_append_blanks`,
`trim_blanks_append`), and a text that neither starts nor ends with one is left as it is (`trim_eq_self`). So
trimming twice is trimming once (`trim_trim`), and nothing is left of blanks only (`trim_eq_nil_iff`).
-/
import LineEndings.Text.Blank
import Mathlib.Data.List.TakeWhile

namespace LineEndings.Text

variable {blanks : List Char}

theorem trimStart_blanks_append (h : allBlank blanks = true) (s : List Char) :
    trimStart (blanks ++ s) = trimStart s :=
  List.dropWhile_append_of_pos (List.all_eq_true.1 h)

theorem trimEnd_append_blanks (h : allBlank blanks = true) (s : List Char) :
    trimEnd (s ++ blanks) = trimEnd s := by
  have hreverse : ∀ c ∈ blanks.reverse, isBlank c = true :=
    fun c hc => List.all_eq_true.1 h c (List.mem_reverse.1 hc)
  rw [trimEnd, List.reverse_append, List.dropWhile_append_of_pos hreverse]
  rfl

theorem trim_blanks_append (h : allBlank blanks = true) (s : List Char) : trim (blanks ++ s) = trim s := by
  rw [trim, trimStart_blanks_append h]
  rfl

theorem trim_append_blanks (h : allBlank blanks = true) (s : List Char) : trim (s ++ blanks) = trim s := by
  by_cases hs : allBlank s = true
  · have hall : allBlank (s ++ blanks) = true := by
      rw [allBlank, List.all_append, Bool.and_eq_true]
      exact ⟨hs, h⟩
    rw [trim_of_allBlank hall, trim_of_allBlank hs]
  · -- Something is left, and the blanks at the end stay behind it.
    have hstart : trimStart (s ++ blanks) = trimStart s ++ blanks := by
      have hne : (s.dropWhile isBlank).isEmpty = false := by
        rw [Bool.eq_false_iff, ne_eq, List.isEmpty_iff, List.dropWhile_eq_nil_iff]
        exact fun hall => hs (List.all_eq_true.2 hall)
      rw [trimStart, List.dropWhile_append, hne]
      rfl
    rw [trim, hstart, trimEnd_append_blanks h]
    rfl

/-- There is nothing to trim where there is no blank at either end. -/
theorem trim_eq_self {s : List Char} (hhead : ∀ c ∈ s.head?, isBlank c = false)
    (hlast : ∀ c ∈ s.getLast?, isBlank c = false) : trim s = s := by
  have hkeep : ∀ {l : List Char}, (∀ c ∈ l.head?, isBlank c = false) → l.dropWhile isBlank = l := by
    intro l hl
    cases l with
    | nil => rfl
    | cons c l => exact List.dropWhile_cons_of_neg (by simp [hl c rfl])
  rw [trim, trimStart, hkeep hhead, trimEnd, hkeep (by rwa [List.head?_reverse]), List.reverse_reverse]

theorem isBlank_of_mem_head?_dropWhile {s : List Char} {c : Char} (h : c ∈ (s.dropWhile isBlank).head?) :
    isBlank c = false := by
  have hnot := List.head?_dropWhile_not isBlank s
  rwa [Option.mem_def.1 h] at hnot

theorem trimEnd_isPrefix (s : List Char) : trimEnd s <+: s := by
  have h := List.reverse_prefix.2 (List.dropWhile_suffix isBlank : s.reverse.dropWhile isBlank <:+ s.reverse)
  rwa [List.reverse_reverse] at h

theorem trim_subset (s : List Char) : trim s ⊆ s :=
  List.Subset.trans (trimEnd_isPrefix _).subset (List.dropWhile_sublist isBlank).subset

/-- There is no blank at either end of what is left. -/
theorem trim_trim (s : List Char) : trim (trim s) = trim s := by
  refine trim_eq_self (fun c hc => ?_) fun c hc => ?_
  · obtain ⟨back, hback⟩ := trimEnd_isPrefix (trimStart s)
    refine isBlank_of_mem_head?_dropWhile (s := s) ?_
    show c ∈ (trimStart s).head?
    rw [← hback, List.head?_append, ← trim, Option.mem_def.1 hc]
    rfl
  · rw [trim, trimEnd, List.getLast?_reverse] at hc
    exact isBlank_of_mem_head?_dropWhile hc

theorem trim_eq_nil_iff {s : List Char} : trim s = [] ↔ allBlank s = true := by
  refine ⟨fun h => ?_, trim_of_allBlank⟩
  have hall : ∀ c ∈ (trimStart s).reverse, isBlank c = true :=
    List.dropWhile_eq_nil_iff.1 (List.reverse_eq_nil_iff.1 h)
  cases hstart : trimStart s with
  | nil => exact List.all_eq_true.2 (List.dropWhile_eq_nil_iff.1 hstart)
  | cons c t =>
    -- What is left after the blanks at the start would start with a blank.
    have hblank := hall c (by rw [hstart]; simp)
    have hnot : isBlank c = false := isBlank_of_mem_head?_dropWhile (s := s) (by
      show c ∈ (trimStart s).head?
      rw [hstart]
      exact rfl)
    rw [hnot] at hblank
    cases hblank

end LineEndings.Text

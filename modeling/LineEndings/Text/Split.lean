/-
Cutting text at a separator, and putting the pieces together again.

`pieces sep s` keeps empty pieces, so there is always at least one (`pieces_ne_nil`), no piece holds
the separator (`not_mem_of_mem_pieces`), and `joined sep` gives the text back (`joined_pieces`), and
the pieces from the text (`pieces_joined`). Lines of a file and segments of a path are both pieces.

Text is a list of characters wherever a rule looks at single characters.
-/

namespace LineEndings.Text

/-- Put `c` in front of the first piece. -/
def consFirst (c : Char) : List (List Char) → List (List Char)
  | [] => [[c]]
  | piece :: rest => (c :: piece) :: rest

/-- The pieces of `s` between the occurrences of `sep`, in order. -/
def pieces (sep : Char) (s : List Char) : List (List Char) :=
  s.foldr (fun c rest => if c = sep then [] :: rest else consFirst c rest) [[]]

/-- The pieces with one `sep` between neighbours. -/
def joined (sep : Char) : List (List Char) → List Char
  | [] => []
  | [piece] => piece
  | piece :: rest => piece ++ sep :: joined sep rest

@[simp] theorem pieces_nil (sep : Char) : pieces sep [] = [[]] := rfl

theorem pieces_cons (sep c : Char) (s : List Char) :
    pieces sep (c :: s) =
      if c = sep then [] :: pieces sep s else consFirst c (pieces sep s) := rfl

theorem pieces_ne_nil (sep : Char) (s : List Char) : pieces sep s ≠ [] := by
  cases s with
  | nil => simp
  | cons c s =>
    rw [pieces_cons]
    split
    · simp
    · cases pieces sep s <;> simp [consFirst]

theorem joined_cons_of_ne_nil (sep : Char) (piece : List Char) {rest : List (List Char)}
    (h : rest ≠ []) : joined sep (piece :: rest) = piece ++ sep :: joined sep rest := by
  cases rest with
  | nil => exact absurd rfl h
  | cons _ _ => rfl

theorem joined_append (sep : Char) {l m : List (List Char)} (hl : l ≠ []) (hm : m ≠ []) :
    joined sep (l ++ m) = joined sep l ++ sep :: joined sep m := by
  induction l with
  | nil => exact absurd rfl hl
  | cons piece rest ih =>
    rw [List.cons_append, joined_cons_of_ne_nil _ _ (by simp [hm])]
    by_cases hrest : rest = []
    · subst hrest
      rfl
    · rw [ih hrest, joined_cons_of_ne_nil _ _ hrest, List.append_assoc, List.cons_append]

theorem joined_snoc (sep : Char) {l : List (List Char)} (hl : l ≠ []) (piece : List Char) :
    joined sep (l ++ [piece]) = joined sep l ++ sep :: piece :=
  joined_append sep hl (List.cons_ne_nil piece [])

/-- What some first pieces spell ends where the text does, or at a separator. -/
theorem exists_joined_append (sep : Char) {l m : List (List Char)} (h : l <+: m) (hne : l ≠ []) :
    ∃ tail, joined sep m = joined sep l ++ tail ∧ ∀ c ∈ tail.head?, c = sep := by
  obtain ⟨rest, rfl⟩ := h
  by_cases hrest : rest = []
  · exact ⟨[], by rw [hrest, List.append_nil, List.append_nil], by simp⟩
  · exact ⟨sep :: joined sep rest, joined_append sep hne hrest, by simp⟩

theorem joined_consFirst (sep c : Char) (l : List (List Char)) :
    joined sep (consFirst c l) = c :: joined sep l := by
  cases l with
  | nil => rfl
  | cons piece rest =>
    cases rest with
    | nil => rfl
    | cons _ _ => rfl

theorem mem_joined {sep c : Char} {l : List (List Char)} (h : c ∈ joined sep l) :
    c = sep ∨ ∃ piece ∈ l, c ∈ piece := by
  induction l with
  | nil => cases h
  | cons piece rest ih =>
    by_cases hrest : rest = []
    · subst hrest
      exact Or.inr ⟨piece, by simp, h⟩
    · rw [joined_cons_of_ne_nil _ _ hrest] at h
      rcases List.mem_append.1 h with h | h
      · exact Or.inr ⟨piece, by simp, h⟩
      · rcases List.mem_cons.1 h with h | h
        · exact Or.inl h
        · exact (ih h).imp_right fun ⟨other, hother, hc⟩ => ⟨other, List.mem_cons_of_mem _ hother, hc⟩

/-- Joining undoes cutting. -/
theorem joined_pieces (sep : Char) (s : List Char) : joined sep (pieces sep s) = s := by
  induction s with
  | nil => rfl
  | cons c s ih =>
    rw [pieces_cons]
    by_cases h : c = sep
    · rw [if_pos h, joined_cons_of_ne_nil _ _ (pieces_ne_nil sep s), ih, h, List.nil_append]
    · rw [if_neg h, joined_consFirst, ih]

theorem not_mem_of_mem_pieces {sep : Char} {s piece : List Char} (h : piece ∈ pieces sep s) :
    sep ∉ piece := by
  induction s generalizing piece with
  | nil => simp_all
  | cons c s ih =>
    rw [pieces_cons] at h
    by_cases hc : c = sep
    · rw [if_pos hc] at h
      rcases List.mem_cons.1 h with rfl | h
      · simp
      · exact ih h
    · rw [if_neg hc] at h
      cases hp : pieces sep s with
      | nil => exact absurd hp (pieces_ne_nil sep s)
      | cons first rest =>
        rw [hp] at h ih
        rcases List.mem_cons.1 h with rfl | h
        · have := ih (List.mem_cons_self ..)
          simp_all [eq_comm]
        · exact ih (List.mem_cons_of_mem _ h)

theorem mem_of_mem_pieces {sep c : Char} {s piece : List Char} (h : piece ∈ pieces sep s) (hc : c ∈ piece) :
    c ∈ s := by
  have hjoined : ∀ l : List (List Char), piece ∈ l → c ∈ joined sep l := by
    intro l hl
    induction l with
    | nil => cases hl
    | cons first rest ih =>
      by_cases hrest : rest = []
      · subst hrest
        rwa [List.mem_singleton.1 hl] at hc
      · rw [joined_cons_of_ne_nil _ _ hrest, List.mem_append, List.mem_cons]
        rcases List.mem_cons.1 hl with rfl | hl
        · exact Or.inl hc
        · exact Or.inr (Or.inr (ih hl))
  rw [← joined_pieces sep s]
  exact hjoined _ h

/-- A separator ends what stands before it. -/
theorem pieces_append_cons (sep : Char) (s t : List Char) :
    pieces sep (s ++ sep :: t) = pieces sep s ++ pieces sep t := by
  induction s with
  | nil => rw [List.nil_append, pieces_cons, if_pos rfl, pieces_nil, List.singleton_append]
  | cons c s ih =>
    rw [List.cons_append, pieces_cons, pieces_cons, ih]
    split
    · rfl
    · cases h : pieces sep s with
      | nil => exact absurd h (pieces_ne_nil sep s)
      | cons piece rest => rfl

theorem pieces_of_not_mem {sep : Char} {piece : List Char} (h : sep ∉ piece) :
    pieces sep piece = [piece] := by
  induction piece with
  | nil => rfl
  | cons c piece ih =>
    have hc : c ≠ sep := by
      rintro rfl
      simp at h
    rw [pieces_cons, if_neg hc, ih (by simp_all)]
    rfl

theorem pieces_append_sep {sep : Char} {piece : List Char} (h : sep ∉ piece) (s : List Char) :
    pieces sep (piece ++ sep :: s) = piece :: pieces sep s := by
  rw [pieces_append_cons, pieces_of_not_mem h, List.singleton_append]

theorem pieces_snoc_sep (sep : Char) (s : List Char) :
    pieces sep (s ++ [sep]) = pieces sep s ++ [[]] :=
  pieces_append_cons sep s []

/-- Another character comes to stand at the end of the last piece. -/
theorem exists_pieces_snoc {sep c : Char} (hc : c ≠ sep) (s : List Char) :
    ∃ front last, pieces sep s = front ++ [last] ∧ pieces sep (s ++ [c]) = front ++ [last ++ [c]] := by
  induction s with
  | nil => exact ⟨[], [], rfl, by rw [List.nil_append, pieces_cons, if_neg hc]; rfl⟩
  | cons d s ih =>
    obtain ⟨front, last, hs, hsnoc⟩ := ih
    rw [List.cons_append, pieces_cons, pieces_cons, hs, hsnoc]
    split
    · exact ⟨[] :: front, last, rfl, rfl⟩
    · cases front with
      | nil => exact ⟨[], d :: last, rfl, rfl⟩
      | cons piece front => exact ⟨(d :: piece) :: front, last, rfl, rfl⟩

/-- A piece that is not the last one has a separator after it, and one before it unless it comes first. -/
theorem mem_dropLast_pieces_iff {sep : Char} {s piece : List Char} :
    piece ∈ (pieces sep s).dropLast ↔ sep ∉ piece ∧
      ∃ tail, s = piece ++ sep :: tail ∨ ∃ front, s = front ++ sep :: (piece ++ sep :: tail) := by
  constructor
  · intro h
    have hmem := (List.dropLast_sublist _).subset h
    refine ⟨not_mem_of_mem_pieces hmem, ?_⟩
    obtain ⟨above, below, hcut⟩ := List.append_of_mem h
    have hne := pieces_ne_nil sep s
    have hpieces : s = joined sep (above ++ piece :: (below ++ [(pieces sep s).getLast hne])) := by
      rw [← List.cons_append, ← List.append_assoc, ← hcut, List.dropLast_concat_getLast hne, joined_pieces]
    refine ⟨joined sep (below ++ [(pieces sep s).getLast hne]), ?_⟩
    by_cases habove : above = []
    · subst habove
      rw [List.nil_append, joined_cons_of_ne_nil _ _ (by simp)] at hpieces
      exact Or.inl hpieces
    · rw [joined_append _ habove (by simp), joined_cons_of_ne_nil _ piece (by simp)] at hpieces
      exact Or.inr ⟨joined sep above, hpieces⟩
  · rintro ⟨hsep, tail, rfl | ⟨front, rfl⟩⟩
    · rw [pieces_append_sep hsep, List.dropLast_cons_of_ne_nil (pieces_ne_nil sep tail)]
      exact List.mem_cons_self
    · rw [pieces_append_cons, pieces_append_sep hsep, List.dropLast_append_of_ne_nil (by simp),
        List.dropLast_cons_of_ne_nil (pieces_ne_nil sep tail)]
      simp

/-- Cutting undoes joining. -/
theorem pieces_joined {sep : Char} {l : List (List Char)} (hne : l ≠ [])
    (h : ∀ piece ∈ l, sep ∉ piece) : pieces sep (joined sep l) = l := by
  induction l with
  | nil => exact absurd rfl hne
  | cons piece rest ih =>
    have hpiece := h piece (List.mem_cons_self ..)
    cases rest with
    | nil => exact pieces_of_not_mem hpiece
    | cons next rest =>
      rw [joined_cons_of_ne_nil _ _ (by simp), pieces_append_sep hpiece,
        ih (by simp) fun other hmem => h other (List.mem_cons_of_mem _ hmem)]

/-- A text whose first piece is empty, and not the only one, starts with the separator. -/
theorem exists_of_pieces_eq_nil_cons {sep : Char} {s : List Char} {rest : List (List Char)}
    (h : pieces sep s = [] :: rest) (hne : rest ≠ []) : ∃ t, s = sep :: t ∧ pieces sep t = rest := by
  have hrest : ∀ piece ∈ rest, sep ∉ piece :=
    fun piece hmem => not_mem_of_mem_pieces (by rw [h]; exact List.mem_cons_of_mem _ hmem)
  refine ⟨joined sep rest, ?_, pieces_joined hne hrest⟩
  rw [← joined_pieces sep s, h, joined_cons_of_ne_nil sep [] hne, List.nil_append]

end LineEndings.Text

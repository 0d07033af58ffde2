/-
Going through a list until something ends it.

`throughFirst` keeps the members of a list up to the first that has a property. Where every member is read
and reading can fail (`List.mapM`), the first failure ends it: all are read (`mapM_eq_ok_iff`), or one fails
and all before it are read (`mapM_eq_error_iff`).
-/
import Mathlib.Data.List.Forall2

namespace LineEndings

/-! ### Up to the first -/

/-- The members of a list up to the first that has a property, and that one. -/
def throughFirst {α : Type} (p : α → Bool) (l : List α) : List α :=
  l.take (l.findIdx p + 1)

section

variable {α : Type} {p q : α → Bool}

theorem throughFirst_cons (a : α) (l : List α) :
    throughFirst p (a :: l) = a :: if p a then [] else throughFirst p l := by
  rw [throughFirst, List.findIdx_cons]
  cases p a with
  | true => rfl
  | false => rfl

theorem throughFirst_sublist (l : List α) : (throughFirst p l).Sublist l :=
  List.take_sublist _ _

/-- Nothing beyond the first is asked. -/
theorem throughFirst_congr {l : List α} (h : ∀ a ∈ throughFirst p l, p a = q a) :
    throughFirst p l = throughFirst q l := by
  induction l with
  | nil => rfl
  | cons a l ih =>
    rw [throughFirst_cons] at h
    have ha := h a (by simp)
    rw [throughFirst_cons, throughFirst_cons, ← ha]
    cases hp : p a with
    | true => rfl
    | false =>
      rw [hp] at h
      rw [ih fun b hb => h b (List.mem_cons_of_mem _ hb)]

/-- What is passed over cuts nothing off. -/
theorem throughFirst_filterMap {β : Type} (f : α → Option β) (r : β → Bool) (l : List α) :
    throughFirst r (l.filterMap f) = (throughFirst (fun a => (f a).any r) l).filterMap f := by
  induction l with
  | nil => rfl
  | cons a l ih =>
    rw [throughFirst_cons]
    cases hf : f a with
    | none => rw [List.filterMap_cons_none hf, List.filterMap_cons_none hf, ih]; rfl
    | some b =>
      rw [List.filterMap_cons_some hf, List.filterMap_cons_some hf, throughFirst_cons, ih, Option.any_some]
      cases r b with
      | true => rfl
      | false => rfl

theorem throughFirst_map {β : Type} (f : α → β) (r : β → Bool) (l : List α) :
    throughFirst r (l.map f) = (throughFirst (fun a => r (f a)) l).map f := by
  simpa only [List.filterMap_eq_map', Option.any_some] using throughFirst_filterMap (fun a => some (f a)) r l

theorem throughFirst_append {front : List α} (h : ∀ a ∈ front, p a = false) (l : List α) :
    throughFirst p (front ++ l) = front ++ throughFirst p l := by
  induction front with
  | nil => rfl
  | cons a front ih =>
    rw [List.cons_append, throughFirst_cons, h a (by simp), ih fun b hb => h b (List.mem_cons_of_mem _ hb)]
    rfl

/-- A member is reached when none before it has the property. -/
theorem mem_throughFirst_iff {l : List α} {a : α} :
    a ∈ throughFirst p l ↔ ∃ front back, l = front ++ a :: back ∧ ∀ b ∈ front, p b = false := by
  constructor
  · intro h
    induction l with
    | nil => cases h
    | cons b l ih =>
      rw [throughFirst_cons] at h
      rcases List.mem_cons.1 h with rfl | h
      · exact ⟨[], l, rfl, by simp⟩
      · cases hb : p b with
        | true =>
          rw [hb] at h
          cases h
        | false =>
          rw [hb] at h
          obtain ⟨front, back, rfl, hfront⟩ := ih h
          exact ⟨b :: front, back, rfl, List.forall_mem_cons.2 ⟨hb, hfront⟩⟩
  · rintro ⟨front, back, rfl, hfront⟩
    rw [throughFirst_append hfront, throughFirst_cons]
    simp

end

/-! ### Up to the first failure -/

section

variable {α β ε : Type} {f : α → Except ε β} {l : List α}

theorem mapM_cons_of_ok {a : α} {b : β} (h : f a = .ok b) :
    (a :: l).mapM f = (l.mapM f).map (b :: ·) := by
  rw [List.mapM_cons, h]
  rfl

theorem mapM_cons_of_error {a : α} {e : ε} (h : f a = .error e) : (a :: l).mapM f = .error e := by
  rw [List.mapM_cons, h]
  rfl

/-- Going through a list succeeds when every member does. -/
theorem mapM_eq_ok_iff {results : List β} :
    l.mapM f = .ok results ↔ List.Forall₂ (fun a b => f a = .ok b) l results := by
  induction l generalizing results with
  | nil =>
    rw [List.forall₂_nil_left_iff]
    exact ⟨fun h => (Except.ok.inj h).symm, fun h => by rw [h]; rfl⟩
  | cons a l ih =>
    cases ha : f a with
    | error e =>
      rw [mapM_cons_of_error ha]
      constructor
      · intro h
        cases h
      · rintro (_ | ⟨h, -⟩)
        rw [ha] at h
        cases h
    | ok b =>
      rw [mapM_cons_of_ok ha, List.forall₂_cons_left_iff]
      constructor
      · intro h
        cases hl : l.mapM f with
        | error e =>
          rw [hl] at h
          cases h
        | ok rest =>
          rw [hl] at h
          exact ⟨b, rest, ha, ih.1 hl, (Except.ok.inj h).symm⟩
      · rintro ⟨b', rest, hb', hrest, rfl⟩
        rw [ha] at hb'
        rw [ih.2 hrest, Except.ok.inj hb']
        rfl

theorem mem_of_mapM_ok {results : List β} (h : l.mapM f = .ok results) :
    ∀ b ∈ results, ∃ a ∈ l, f a = .ok b := by
  intro b hb
  induction mapM_eq_ok_iff.1 h with
  | nil => cases hb
  | cons hab hrest ih =>
    rcases List.mem_cons.1 hb with rfl | hb
    · exact ⟨_, List.mem_cons_self, hab⟩
    · obtain ⟨a, ha, hfa⟩ := ih (mapM_eq_ok_iff.2 hrest) hb
      exact ⟨a, List.mem_cons_of_mem _ ha, hfa⟩

theorem exists_ok_of_mapM_ok {results : List β} (h : l.mapM f = .ok results) :
    ∀ a ∈ l, ∃ b, f a = .ok b := by
  intro a ha
  induction mapM_eq_ok_iff.1 h with
  | nil => cases ha
  | cons hab hrest ih =>
    rcases List.mem_cons.1 ha with rfl | ha
    · exact ⟨_, hab⟩
    · exact ih (mapM_eq_ok_iff.2 hrest) ha

theorem exists_mapM_eq_ok (h : ∀ a ∈ l, ∃ b, f a = .ok b) : ∃ results, l.mapM f = .ok results := by
  induction l with
  | nil => exact ⟨[], rfl⟩
  | cons a l ih =>
    obtain ⟨b, hb⟩ := h a (by simp)
    obtain ⟨results, hresults⟩ := ih fun c hc => h c (List.mem_cons_of_mem _ hc)
    exact ⟨b :: results, by rw [mapM_cons_of_ok hb, hresults]; rfl⟩

theorem mapM_append_of_ok {results : List β} (h : l.mapM f = .ok results) (more : List α) :
    (l ++ more).mapM f = (more.mapM f).map (results ++ ·) := by
  rw [List.mapM_append, h]
  rfl

theorem mapM_append_of_error {e : ε} (h : l.mapM f = .error e) (more : List α) :
    (l ++ more).mapM f = .error e := by
  rw [List.mapM_append, h]
  rfl

/-- Going through a list fails with the first member that does. -/
theorem mapM_eq_error_iff {e : ε} :
    l.mapM f = .error e ↔
      ∃ front a back, l = front ++ a :: back ∧ (∀ b ∈ front, ∃ c, f b = .ok c) ∧ f a = .error e := by
  constructor
  · intro h
    induction l with
    | nil => cases h
    | cons a l ih =>
      cases ha : f a with
      | error e' =>
        rw [mapM_cons_of_error ha] at h
        exact ⟨[], a, l, rfl, by simp, by rw [ha, Except.error.inj h]⟩
      | ok c =>
        rw [mapM_cons_of_ok ha] at h
        cases hl : l.mapM f with
        | ok results =>
          rw [hl] at h
          cases h
        | error e' =>
          rw [hl] at h
          obtain ⟨front, b, back, rfl, hfront, hb⟩ := ih (hl.trans h)
          exact ⟨a :: front, b, back, rfl, List.forall_mem_cons.2 ⟨⟨c, ha⟩, hfront⟩, hb⟩
  · rintro ⟨front, a, back, rfl, hfront, ha⟩
    obtain ⟨results, hresults⟩ := exists_mapM_eq_ok hfront
    rw [mapM_append_of_ok hresults, mapM_cons_of_error ha]
    rfl

/-- What comes after a failure does not matter, so a list may be cut there or not. -/
theorem mapM_throughFirst_eq {p q : α → Bool} (hpq : ∀ a, p a = true → q a = true)
    (hfails : ∀ a, q a = true → p a = false → ∃ e, f a = .error e) (l : List α) :
    (throughFirst p l).mapM f = (throughFirst q l).mapM f := by
  induction l with
  | nil => rfl
  | cons a l ih =>
    rw [throughFirst_cons, throughFirst_cons]
    cases hp : p a with
    | true =>
      rw [hpq a hp]
      rfl
    | false =>
      cases hq : q a with
      | true =>
        obtain ⟨e, he⟩ := hfails a hq hp
        rw [mapM_cons_of_error he, mapM_cons_of_error he]
      | false =>
        cases ha : f a with
        | error e => rw [mapM_cons_of_error ha, mapM_cons_of_error ha]
        | ok b =>
          rw [mapM_cons_of_ok ha, mapM_cons_of_ok ha]
          exact congrArg _ ih

end

end LineEndings

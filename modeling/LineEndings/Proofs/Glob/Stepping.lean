/-
Reading a pattern by places, in checked steps.

A pattern can be read by places instead of by texts: one pass finds which brace closes which (`closers`), and a group
and its branches are ranges of the pattern. Steps are then of different lengths, over an escaped character, a class or
a group, and a wrong one ends behind its range, or in the middle of a unit. So the reader here takes no step and looks
at no place unchecked, and a `Fault` says what it ran into. In a bracket expression there is none:

* `closingBracketAt_eq` — the bracket that closes one is found where its text is split;
* `classAt_eq` — and what is read from the range before it is what is read from that text.
-/
import LineEndings.Proofs.Glob.Occurring
import LineEndings.Proofs.Glob.Pairing

namespace LineEndings.Glob

open Brace

/-! ### Checked steps -/

/-- What can go wrong where a pattern is read by places. -/
inductive Fault where
  /-- Nothing stands at a place. -/
  | outside (place : Nat)
  /-- A range ends before it starts, or behind the text. -/
  | badRange (start stop : Nat)
  /-- A step does not go forward, or goes beyond the end of its range. -/
  | badStep (place next stop : Nat)
  /-- A group that is opened in a range is closed behind it. -/
  | parted (opening closing stop : Nat)
  deriving Repr, DecidableEq

/-- What stands at a place. -/
def lookAt {α : Type} (list : List α) (place : Nat) : Except Fault α :=
  match list[place]? with
  | some found => .ok found
  | none => .error (.outside place)

/-- What stands at a place, if that is in its range. -/
def peekAt (s : List Char) (place stop : Nat) : Except Fault (Option Char) :=
  if place < stop then (lookAt s place).map some else .ok none

/-- A range of a text that is looked into. -/
def inRange (s : List Char) (start stop : Nat) : Except Fault Unit :=
  if start ≤ stop ∧ stop ≤ s.length then .ok () else .error (.badRange start stop)

/-- A step that goes forward, and not beyond the end of its range. -/
def stepTo (place next stop : Nat) : Except Fault { next // place < next ∧ next ≤ stop } :=
  if h : place < next ∧ next ≤ stop then .ok ⟨next, h⟩ else .error (.badStep place next stop)

/-! ### Reading by places -/

section

variable (s : List Char)

/-- The place of the `]` that closes a bracket expression, from a place in it. -/
def closingBracketAt (stop place : Nat) : Except Fault (Option Nat) :=
  if place < stop then do
    match ← lookAt s place with
    | '\\' => closingBracketAt stop (place + 2)
    | ']' => return some place
    | _ => closingBracketAt stop (place + 1)
  else return none
  termination_by stop - place

/-- The character of a bracket expression at a place, and the place behind it. -/
def classCharAt (place : Nat) : Except Fault (Char × Nat) := do
  match ← lookAt s place, s[place + 1]? with
  | '\\', some c => return (c, place + 2)
  | c, _ => return (c, place + 1)

/-- The items of a bracket expression from a place on. -/
def classItemsFrom (place : Nat) : Except Fault (List ClassItem) :=
  if place < s.length then do
    let (low, behind) ← classCharAt s place
    if s[behind]? = some '-' ∧ behind + 1 < s.length then
      let (high, behind) ← classCharAt s (behind + 1)
      let ⟨next, _⟩ ← stepTo place behind s.length
      let items ← classItemsFrom next
      return if low ≤ high then .range low high :: items else items
    else
      let ⟨next, _⟩ ← stepTo place behind s.length
      let items ← classItemsFrom next
      return .single low :: items
  else return []
  termination_by s.length - place

/-- The token for a range that stands between `[` and `]`. -/
def classAt (start stop : Nat) : Except Fault Token := do
  inRange s start stop
  let inside := slice s (start, stop)
  let (negated, body) :=
    match inside with
    | '!' :: body => (true, body)
    | '^' :: body => (true, body)
    | _ => (false, inside)
  let items ← classItemsFrom body 0
  return if items.isEmpty && !negated then .never else .charClass ⟨negated, items⟩

/-- Where the search for commas goes on behind the character at a place. -/
def placeBehind (c : Char) (place : Nat) : Except Fault Nat :=
  match c with
  | '\\' => return place + 2
  | '{' => do
    match ← lookAt (closers s) place with
    | some closing => return closing + 1
    | none => return place + 1
  | _ => return place + 1

/-- The branch ranges of a group from a place on, where the branch there has started at `start`. -/
def scanRanges (stop start place : Nat) : Except Fault (List (Nat × Nat)) :=
  if place < stop then do
    let c ← lookAt s place
    let ⟨next, _⟩ ← stepTo place (← placeBehind s c place) stop
    if c = ',' then
      let ranges ← scanRanges stop next next
      return (start, place) :: ranges
    else scanRanges stop start next
  else return [(start, stop)]
  termination_by stop - place

/-- The branch ranges of the group between two braces. -/
def rangesInPlace (opening closing : Nat) : Except Fault (List (Nat × Nat)) :=
  scanRanges s closing (opening + 1) (opening + 1)

variable (branch : Option (Nat → Nat → Except Fault (List Token)))

/-- The token for the group between two braces, given how a range is read. -/
def groupAt (read : Nat → Nat → Except Fault (List Token)) (opening closing : Nat) : Except Fault Token := do
  let ranges ← rangesInPlace s opening closing
  let branches ← ranges.mapM fun range => read range.1 range.2
  let live := branches.filter (!dead ·)
  return if live.isEmpty then .never else .group live

/-- The token that starts with `c` at a place with `after` behind it, and the place behind the token. `branch` reads a
branch of a group; without it, braces stand for themselves. -/
def tokenOf (place stop : Nat) (c : Char) (after : Option Char) : Except Fault (Token × Nat) :=
  match c with
  | '\\' =>
    match after with
    | none => return (.literal '\\', place + 1)
    | some d => return (.literal d, place + 2)
  | '*' => return if after = some '*' then (.globStar, place + 2) else (.star, place + 1)
  | '?' => return (.question, place + 1)
  | '[' => do
    match ← closingBracketAt s stop (place + 1) with
    | some closing => return (← classAt s (place + 1) closing, closing + 1)
    | none => return (.literal '[', place + 1)
  | '{' => do
    match ← lookAt (closers s) place with
    | some closing =>
      -- However deep the group is: what is opened in a range must be closed in it.
      if closing < stop then
        match branch with
        | some read => return (← groupAt s read place closing, closing + 1)
        | none => return (.literal '{', place + 1)
      else throw (.parted place closing stop)
    | none => return (.literal '{', place + 1)
  | c => return (.literal c, place + 1)

/-- The token at a place, and the place behind it. -/
def tokenAt (stop place : Nat) : Except Fault (Token × Nat) := do
  let after ← peekAt s (place + 1) stop
  tokenOf s branch place stop (← lookAt s place) after

/-- The tokens of a range from a place on. -/
def tokensFrom (stop place : Nat) : Except Fault (List Token) :=
  if place < stop then do
    let (token, behind) ← tokenAt s branch stop place
    let ⟨next, _⟩ ← stepTo place behind stop
    let tokens ← tokensFrom stop next
    return token :: tokens
  else return []
  termination_by stop - place

/-- The tokens of a range. -/
def tokensOfRange (start stop : Nat) : Except Fault (List Token) := do
  inRange s start stop
  tokensFrom s branch stop start

/-- The tokens of a range, where groups may nest `levels` deep. -/
def rangeWithin : Nat → Nat → Nat → Except Fault (List Token)
  | 0 => tokensOfRange s none
  | levels + 1 => tokensOfRange s (some (rangeWithin levels))

/-- The tokens of a pattern. -/
def tokensInPlace : Except Fault (List Token) :=
  rangeWithin s maxDepth 0 s.length

end

theorem lookAt_eq {α : Type} {l front back : List α} {a : α} {place : Nat} (hl : l = front ++ a :: back)
    (hplace : place = front.length) : lookAt l place = .ok a := by
  simp [lookAt, hl, hplace]

theorem bind_ok_eq_map {α β : Type} (read : Except Fault α) (f : α → β) :
    (read >>= fun a => .ok (f a)) = read.map f := by
  cases read with
  | error fault => rfl
  | ok a => rfl

theorem stepTo_eq {place next stop : Nat} (h : place < next ∧ next ≤ stop) :
    stepTo place next stop = .ok ⟨next, h⟩ :=
  dif_pos h

theorem inRange_eq {s : List Char} {start stop : Nat} (h : start ≤ stop ∧ stop ≤ s.length) :
    inRange s start stop = .ok () :=
  if_pos h

/-! ### Bracket expressions -/

section

variable {s t front back : List Char} {start stop : Nat}

theorem peekAt_eq (hs : s = front ++ (t ++ back)) (hstart : start = front.length) (hstop : stop = start + t.length) :
    peekAt s start stop = .ok t.head? := by
  subst hs hstart hstop
  unfold peekAt
  cases t with
  | nil => simp
  | cons c t =>
    rw [if_pos (by simp), List.cons_append, lookAt_eq rfl rfl]
    rfl

theorem closingBracketAt_step {c : Char} (hlt : start < stop) (hlook : lookAt s start = .ok c) :
    closingBracketAt s stop start =
      if c = '\\' then closingBracketAt s stop (start + 2)
      else if c = ']' then .ok (some start) else closingBracketAt s stop (start + 1) := by
  rw [closingBracketAt, if_pos hlt, hlook]
  by_cases hescape : c = '\\'
  · subst hescape
    rfl
  · by_cases hbracket : c = ']'
    · subst hbracket
      rfl
    · rw [if_neg hescape, if_neg hbracket]
      show (match c with
        | '\\' => closingBracketAt s stop (start + 2)
        | ']' => .ok (some start)
        | _ => closingBracketAt s stop (start + 1)) = _
      split <;> first | contradiction | rfl

/-- The bracket is found where the text is split. -/
theorem closingBracketAt_eq (hs : s = front ++ (t ++ back)) (hstart : start = front.length)
    (hstop : stop = start + t.length) :
    closingBracketAt s stop start = .ok ((splitBracket? t).map fun found => start + found.1.length) := by
  fun_induction splitBracket? t generalizing front start with
  | case1 =>
    rw [closingBracketAt, if_neg (by simp [hstop])]
    rfl
  | case2 =>
    rw [closingBracketAt_step (by simp [hstop]) (lookAt_eq hs hstart), if_pos rfl, closingBracketAt,
      if_neg (by simp [hstop])]
    rfl
  | case3 c t ih =>
    have hrest := @ih (front ++ ['\\', c]) (start + 2) (by simp [hs]) (by simp [hstart]) (by simp [hstop]; omega)
    rw [closingBracketAt_step (by simp [hstop]) (lookAt_eq hs hstart), if_pos rfl, hrest, Option.map_map]
    refine congrArg Except.ok (congrArg (Option.map · _) (funext fun found => ?_))
    show start + 2 + found.1.length = start + (found.1.length + 2)
    omega
  | case4 t _ _ =>
    rw [closingBracketAt_step (by simp [hstop]) (lookAt_eq hs hstart), if_neg (by simp), if_pos rfl]
    rfl
  | case5 c t hlone hescape hbracket ih =>
    have hrest := @ih (front ++ [c]) (start + 1) (by simp [hs]) (by simp [hstart]) (by simp [hstop]; omega)
    have hc : c ≠ '\\' := by
      rintro rfl
      cases t with
      | nil => exact hlone rfl rfl
      | cons d t => exact hescape d t rfl rfl
    rw [closingBracketAt_step (by simp [hstop]) (lookAt_eq hs hstart), if_neg hc, if_neg hbracket, hrest,
      Option.map_map]
    refine congrArg Except.ok (congrArg (Option.map · _) (funext fun found => ?_))
    show start + 1 + found.1.length = start + (found.1.length + 1)
    omega

/-- A character of a bracket expression is the one that is read from its text. -/
theorem classCharAt_eq {c : Char} (hs : s = front ++ c :: t) :
    ∃ x, c :: t = x ++ (readClassChar c t).2 ∧ x ≠ [] ∧
      classCharAt s front.length = .ok ((readClassChar c t).1, front.length + x.length) := by
  have hlook : lookAt s front.length = .ok c := lookAt_eq hs rfl
  unfold readClassChar
  split
  · rename_i d t
    have hnext : s[front.length + 1]? = some d := by simp [hs]
    refine ⟨['\\', d], rfl, List.cons_ne_nil _ _, ?_⟩
    rw [classCharAt, hlook, hnext]
    rfl
  · rename_i hplain
    refine ⟨[c], rfl, List.cons_ne_nil _ _, ?_⟩
    rw [classCharAt, hlook]
    show (match c, s[front.length + 1]? with
      | '\\', some c => (.ok (c, front.length + 2) : Except Fault _)
      | c, _ => .ok (c, front.length + 1)) = _
    split
    · rename_i d hnext
      cases t with
      | nil => simp [hs] at hnext
      | cons e t => exact absurd rfl (hplain e t rfl)
    · rfl

/-- A `-` that something follows stands at a place just when the text from there starts with it. -/
theorem dashAt_iff (hs : s = front ++ t) :
    s[front.length]? = some '-' ∧ front.length + 1 < s.length ↔ ∃ d r, t = '-' :: d :: r := by
  rw [hs, List.getElem?_append_right (Nat.le_refl _), Nat.sub_self, List.length_append]
  constructor
  · rintro ⟨hget, hlt⟩
    match t with
    | [] => cases hget
    | [_] => exact absurd hlt (Nat.lt_irrefl _)
    | e :: d :: r => exact ⟨d, r, by rw [Option.some.inj hget]⟩
  · rintro ⟨d, r, rfl⟩
    refine ⟨rfl, ?_⟩
    simp only [List.length_cons]
    omega

theorem classItemsFrom_range {c d : Char} {r : List Char} (hs : s = front ++ c :: t)
    (hdash : (readClassChar c t).2 = '-' :: d :: r) :
    ∃ before, s = before ++ (readClassChar d r).2 ∧ classItemsFrom s front.length =
      (classItemsFrom s before.length).map fun items =>
        if (readClassChar c t).1 ≤ (readClassChar d r).1 then
          .range (readClassChar c t).1 (readClassChar d r).1 :: items
        else items := by
  obtain ⟨x, hx, -, hlow⟩ := classCharAt_eq hs
  rw [hdash] at hx
  have hmiddle : s = (front ++ (x ++ ['-'])) ++ d :: r := by rw [hs, hx]; simp
  obtain ⟨y, hy, -, hhigh⟩ := classCharAt_eq hmiddle
  have hend : s = (front ++ (x ++ '-' :: y)) ++ (readClassChar d r).2 := by rw [hmiddle, hy]; simp
  have hrest : s = (front ++ x) ++ '-' :: d :: r := by rw [hs, hx, List.append_assoc]
  have hbehind := (dashAt_iff hrest).2 ⟨d, r, rfl⟩
  rw [List.length_append] at hbehind
  have hplace : (front ++ (x ++ ['-'])).length = front.length + x.length + 1 := by simp; omega
  have hlength : (front ++ (x ++ '-' :: y)).length = front.length + x.length + 1 + y.length := by simp; omega
  have hnext : front.length < front.length + x.length + 1 + y.length ∧
      front.length + x.length + 1 + y.length ≤ s.length := by
    have hle := congrArg List.length hend
    rw [List.length_append, hlength] at hle
    omega
  rw [hplace] at hhigh
  refine ⟨front ++ (x ++ '-' :: y), hend, ?_⟩
  rw [hlength, classItemsFrom, if_pos (by omega), hlow]
  show (if _ then _ else _) = _
  rw [if_pos hbehind]
  show classCharAt s (front.length + x.length + 1) >>= _ = _
  rw [hhigh]
  show stepTo front.length (front.length + x.length + 1 + y.length) s.length >>= _ = _
  rw [stepTo_eq hnext]
  exact bind_ok_eq_map _ _

theorem classItemsFrom_single {c : Char} (hs : s = front ++ c :: t)
    (hdash : ∀ d r, (readClassChar c t).2 ≠ '-' :: d :: r) :
    ∃ before, s = before ++ (readClassChar c t).2 ∧ classItemsFrom s front.length =
      (classItemsFrom s before.length).map (.single (readClassChar c t).1 :: ·) := by
  obtain ⟨x, hx, hne, hchar⟩ := classCharAt_eq hs
  have hend : s = (front ++ x) ++ (readClassChar c t).2 := by rw [hs, hx, List.append_assoc]
  have hbehind := (dashAt_iff hend).not.2 fun ⟨d, r, heq⟩ => hdash d r heq
  rw [List.length_append] at hbehind
  have hnext : front.length < front.length + x.length ∧ front.length + x.length ≤ s.length := by
    have hpos := List.length_pos_iff.2 hne
    have hle := congrArg List.length hend
    rw [List.length_append, List.length_append] at hle
    omega
  refine ⟨front ++ x, hend, ?_⟩
  rw [List.length_append, classItemsFrom, if_pos (by omega), hchar]
  show (if _ then _ else _) = _
  rw [if_neg hbehind]
  show stepTo front.length (front.length + x.length) s.length >>= _ = _
  rw [stepTo_eq hnext]
  exact bind_ok_eq_map _ _

/-- The items of a bracket expression are those of its text. -/
theorem classItemsFrom_eq (t : List Char) : ∀ front, s = front ++ t →
    classItemsFrom s front.length = .ok (classItems t) := by
  fun_induction classItems t with
  | case1 =>
    intro front hs
    rw [classItemsFrom, if_neg (by simp [hs])]
    rfl
  | case2 c t d r hdash low high hle ih =>
    intro front hs
    obtain ⟨before, hbefore, hitems⟩ := classItemsFrom_range hs hdash
    rw [hitems, ih before hbefore]
    show Except.ok (if low ≤ high then _ else _) = _
    rw [if_pos hle]
  | case3 c t d r hdash low high hnot ih =>
    intro front hs
    obtain ⟨before, hbefore, hitems⟩ := classItemsFrom_range hs hdash
    rw [hitems, ih before hbefore]
    show Except.ok (if low ≤ high then _ else _) = _
    rw [if_neg hnot]
  | case4 c t hdash ih =>
    intro front hs
    obtain ⟨before, hbefore, hitems⟩ := classItemsFrom_single hs hdash
    rw [hitems, ih before hbefore]
    rfl

/-- The token for a range between brackets is the one for its text. -/
theorem classAt_eq (hs : s = front ++ (t ++ back)) (hstart : start = front.length) (hstop : stop = start + t.length) :
    classAt s start stop = .ok (classToken t) := by
  subst hs hstart hstop
  have hrange : front.length ≤ front.length + t.length ∧
      front.length + t.length ≤ (front ++ (t ++ back)).length := by
    simp only [List.length_append]
    omega
  have hitems : ∀ body, classItemsFrom body 0 = .ok (classItems body) := fun body => classItemsFrom_eq body [] rfl
  rw [classAt, inRange_eq hrange, slice_append]
  show classItemsFrom _ 0 >>= _ = _
  rw [hitems]
  rfl

end

end LineEndings.Glob

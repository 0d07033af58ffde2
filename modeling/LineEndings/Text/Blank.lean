/-
Blank characters and trimming.

A character is blank when it has the Unicode property White_Space; there are 25 of them, six in the
ASCII range. `trim` removes the blanks at both ends, and nothing is left of a text of blanks
(`trim_of_allBlank`).
-/

namespace LineEndings.Text

/-- Unicode's White_Space. -/
def isBlank (c : Char) : Bool :=
  let n := c.toNat
  (0x09 ≤ n && n ≤ 0x0d) || n == 0x20 || n == 0x85 || n == 0xa0 || n == 0x1680 ||
    (0x2000 ≤ n && n ≤ 0x200a) || n == 0x2028 || n == 0x2029 || n == 0x202f || n == 0x205f ||
    n == 0x3000

/-- `s` without its leading blanks. -/
def trimStart (s : List Char) : List Char :=
  s.dropWhile isBlank

/-- `s` without its trailing blanks. -/
def trimEnd (s : List Char) : List Char :=
  (s.reverse.dropWhile isBlank).reverse

/-- `s` without the blanks at its ends. -/
def trim (s : List Char) : List Char :=
  trimEnd (trimStart s)

/-- Whether nothing is left of `s` after trimming. -/
def allBlank (s : List Char) : Bool :=
  s.all isBlank

/-- A string without the blanks at its ends. -/
def trimmed (s : String) : String :=
  String.ofList (trim s.toList)

/-- Whether a string is empty after trimming. -/
def isAllBlank (s : String) : Bool :=
  allBlank s.toList

theorem trim_of_allBlank {s : List Char} (h : allBlank s = true) : trim s = [] := by
  have hstart : trimStart s = [] := by
    unfold trimStart
    induction s with
    | nil => rfl
    | cons c s ih =>
      rw [allBlank, List.all_cons, Bool.and_eq_true] at h
      obtain ⟨hc, hs⟩ := h
      rw [List.dropWhile_cons_of_pos hc, ih hs]
  rw [trim, hstart]
  rfl

end LineEndings.Text

/-
Zero bytes in the encoding of a text.

A character has a zero byte in its encoding when it is the zero character, so a text has one among its first
bytes when a zero character stands there:

* `zero_mem_utf8EncodeChar_iff` — the bytes of other characters are not zero;
* `zero_mem_take_iff`, `contains_zero_extract_iff` — the first bytes of a text hold a zero when a zero
  character starts within them;
* `hasZeroWithin_append_zero_iff`, `hasZeroWithin_append_iff` — it is the first zero character that counts.
-/
import Mathlib.Data.String.Basic

namespace LineEndings.Text

variable {c : Char} {size : Nat} {text front rest : List Char}

/-- Whether a zero character starts within the first bytes of a text. -/
def HasZeroWithin (size : Nat) (text : List Char) : Prop :=
  ∃ above below, text = above ++ '\x00' :: below ∧ String.utf8Len above < size

theorem not_hasZeroWithin_nil : ¬ HasZeroWithin size [] := by
  rintro ⟨above, below, h, -⟩
  simp at h

theorem hasZeroWithin_cons_zero_iff : HasZeroWithin size ('\x00' :: rest) ↔ 0 < size := by
  constructor
  · rintro ⟨above, below, -, h⟩
    exact Nat.zero_lt_of_lt h
  · exact fun h => ⟨[], rest, rfl, h⟩

theorem hasZeroWithin_cons_iff (hc : c ≠ '\x00') :
    HasZeroWithin size (c :: rest) ↔ HasZeroWithin (size - c.utf8Size) rest := by
  constructor
  · rintro ⟨above, below, h, hsize⟩
    cases above with
    | nil => exact absurd (List.cons.inj h).1 hc
    | cons d above =>
      obtain ⟨rfl, hrest⟩ := List.cons.inj h
      rw [String.utf8Len_cons] at hsize
      exact ⟨above, below, hrest, by omega⟩
  · rintro ⟨above, below, rfl, hsize⟩
    exact ⟨c :: above, below, rfl, by rw [String.utf8Len_cons]; omega⟩

/-- The first zero character of a text decides. -/
theorem hasZeroWithin_append_zero_iff (h : '\x00' ∉ front) :
    HasZeroWithin size (front ++ '\x00' :: rest) ↔ String.utf8Len front < size := by
  induction front generalizing size with
  | nil => exact hasZeroWithin_cons_zero_iff
  | cons c front ih =>
    rw [List.mem_cons, not_or] at h
    rw [List.cons_append, hasZeroWithin_cons_iff (Ne.symm h.1), ih h.2, String.utf8Len_cons]
    omega

/-- Text without a zero character brings none. -/
theorem hasZeroWithin_append_iff (h : '\x00' ∉ rest) :
    HasZeroWithin size (text ++ rest) ↔ HasZeroWithin size text := by
  induction text generalizing size with
  | nil =>
    refine iff_of_false ?_ not_hasZeroWithin_nil
    rintro ⟨above, below, rfl, -⟩
    exact h (by simp)
  | cons c text ih =>
    by_cases hc : c = '\x00'
    · rw [hc, List.cons_append, hasZeroWithin_cons_zero_iff, hasZeroWithin_cons_zero_iff]
    · rw [List.cons_append, hasZeroWithin_cons_iff hc, hasZeroWithin_cons_iff hc, ih]

/-! ### Bytes -/

theorem zero_eq_ofNat_iff (n : Nat) : (0 : UInt8) = UInt8.ofNat n ↔ n % 256 = 0 := by
  rw [← UInt8.toNat_inj, UInt8.toNat_ofNat', eq_comm]
  rfl

/-- The bytes of a character that has several are marked as such, and are not zero. -/
theorem zero_mem_utf8EncodeChar_iff : 0 ∈ String.utf8EncodeChar c ↔ c = '\x00' := by
  have hzero : c = '\x00' ↔ c.val.toNat = 0 := by
    rw [← Char.val_inj, ← UInt32.toNat_inj]
    rfl
  rw [hzero, String.utf8EncodeChar]
  generalize c.val.toNat = v
  -- A character of one byte is that byte; the bytes of a longer encoding all have their highest bit set.
  split
  · simp only [List.mem_singleton, zero_eq_ofNat_iff]
    omega
  · split
    · simp only [List.mem_cons, List.not_mem_nil, or_false, zero_eq_ofNat_iff]
      omega
    · split
      · simp only [List.mem_cons, List.not_mem_nil, or_false, zero_eq_ofNat_iff]
        omega
      · simp only [List.mem_cons, List.not_mem_nil, or_false, zero_eq_ofNat_iff]
        omega

theorem zero_mem_take_iff (size : Nat) (text : List Char) :
    0 ∈ (text.flatMap String.utf8EncodeChar).take size ↔ HasZeroWithin size text := by
  induction text generalizing size with
  | nil => simpa using not_hasZeroWithin_nil
  | cons c text ih =>
    rw [List.flatMap_cons, List.take_append, List.mem_append, String.length_utf8EncodeChar, ih]
    by_cases hc : c = '\x00'
    · -- The zero is the first byte, so it is there as soon as one byte is looked at.
      subst hc
      rw [hasZeroWithin_cons_zero_iff]
      constructor
      · rintro (h | ⟨_, _, _, h⟩)
        · exact (List.length_pos_of_mem h).trans_le (List.length_take_le _ _)
        · omega
      · intro h
        obtain ⟨size, rfl⟩ := Nat.exists_eq_add_one.2 h
        exact Or.inl List.mem_cons_self
    · have hzero : (0 : UInt8) ∉ (String.utf8EncodeChar c).take size :=
        fun h => hc (zero_mem_utf8EncodeChar_iff.1 (List.mem_of_mem_take h))
      rw [hasZeroWithin_cons_iff hc, or_iff_right hzero]

theorem toList_data_toUTF8 (text : String) :
    text.toUTF8.data.toList = text.toList.flatMap String.utf8EncodeChar := by
  conv_lhs => rw [← String.ofList_toList (s := text)]
  exact congrArg Array.toList List.data_toByteArray

theorem contains_zero_extract_iff (size : Nat) (text : String) :
    (text.toUTF8.extract 0 size).data.contains 0 = true ↔ HasZeroWithin size text.toList := by
  have hbytes : text.toUTF8.data = (text.toList.flatMap String.utf8EncodeChar).toArray := by
    rw [← toList_data_toUTF8]
  rw [Array.contains_iff_mem, ByteArray.data_extract, hbytes, List.extract_toArray, List.mem_toArray,
    ← zero_mem_take_iff]
  rfl

end LineEndings.Text

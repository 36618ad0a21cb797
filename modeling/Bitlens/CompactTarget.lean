import Bitlens.Lib.SignMagnitude
import Bitlens.Retarget

namespace Bitlens
open Lib

/-- The value with all bits below its three leading bytes cleared, or below its two leading ones
where the first of them has the top bit set. -/
def leadingBytes (value : Nat) : Nat :=
  keepLeading 256 (if 0x80 ≤ leadingDigit 256 value then 2 else 3) value

/-- The mantissa and exponent of a value that is not zero: there is no sign bit, no byte of the
exponent is wasted, and no bit of the mantissa is below the value's last byte. -/
structure NormalForm (word size : Nat) : Prop where
  least : 2 ^ 15 ≤ word
  unsigned : word < 2 ^ 23
  sized : 1 ≤ size
  fits : size ≤ 32 ∨ size = 33 ∧ word < 2 ^ 16
  whole : 256 ^ (3 - size) ∣ word

def Normal (compact : UInt32) : Prop :=
  compact = 0 ∨ NormalForm (compact.toNat % 2 ^ 24) (compact.toNat / 2 ^ 24)

/-- The number of bytes in the compact form of a value that is not zero. -/
def formSize (value : Nat) : Nat := (Nat.log2 value + 1) / 8 + 1

variable {value word size k : Nat} {compact : UInt32}

theorem formSize_bounds (positive : value ≠ 0) :
    2 ^ 15 * 256 ^ formSize value ≤ value * 256 ^ 3 ∧ value * 256 ^ 3 < 2 ^ 23 * 256 ^ formSize value := by
  have low : 2 ^ Nat.log2 value ≤ value := Nat.log2_self_le positive
  have high : value < 2 ^ (Nat.log2 value + 1) := Nat.lt_log2_self
  have size : formSize value = (Nat.log2 value + 1) / 8 + 1 := rfl
  have three : (256 : Nat) ^ 3 = 2 ^ 24 := by norm_num
  rw [← two_pow_eight_mul (formSize value), three, ← pow_add, ← pow_add]
  constructor
  · calc 2 ^ (15 + 8 * formSize value) ≤ 2 ^ (Nat.log2 value + 24) := Nat.pow_le_pow_right (by omega) (by omega)
      _ = 2 ^ Nat.log2 value * 2 ^ 24 := pow_add _ _ _
      _ ≤ value * 2 ^ 24 := Nat.mul_le_mul_right _ low
  · calc value * 2 ^ 24 < 2 ^ (Nat.log2 value + 1) * 2 ^ 24 := Nat.mul_lt_mul_of_pos_right high (by positivity)
      _ = 2 ^ (Nat.log2 value + 1 + 24) := (pow_add _ _ _).symm
      _ ≤ 2 ^ (23 + 8 * formSize value) := Nat.pow_le_pow_right (by omega) (by omega)

theorem formSize_eq (least : 2 ^ 15 * 256 ^ k ≤ value * 256 ^ 3) (bound : value * 256 ^ 3 < 2 ^ 23 * 256 ^ k) :
    formSize value = k := by
  have positive : value ≠ 0 := by
    rintro rfl
    have power : 0 < 2 ^ 15 * 256 ^ k := by positivity
    omega
  obtain ⟨low, high⟩ := formSize_bounds positive
  have below : 2 ^ 15 * 256 ^ k < 2 ^ 23 * 256 ^ formSize value := lt_of_le_of_lt least high
  have above : 2 ^ 15 * 256 ^ formSize value < 2 ^ 23 * 256 ^ k := lt_of_le_of_lt low bound
  rw [← two_pow_eight_mul, ← two_pow_eight_mul, ← pow_add, ← pow_add,
    Nat.pow_lt_pow_iff_right (by omega)] at below above
  omega

/-- The compact form has a byte more where the top bit of the leading byte is set. -/
theorem formSize_eq_digitCount (positive : value ≠ 0) :
    formSize value = if 0x80 ≤ leadingDigit 256 value then digitCount 256 value + 1 else digitCount 256 value := by
  have base : 1 < 256 := by omega
  have low := pow_le_of_pos base (Nat.pos_of_ne_zero positive)
  have high : value < 256 ^ digitCount 256 value := lt_pow_digitCount base
  obtain ⟨t, count⟩ : ∃ t, digitCount 256 value = t + 1 := by
    refine Nat.exists_eq_succ_of_ne_zero fun none => ?_
    rw [none, pow_zero] at high
    omega
  have top : 0x80 ≤ leadingDigit 256 value ↔ _ := le_leadingDigit_iff base
  rw [count, Nat.add_sub_cancel] at low top
  rw [count, pow_succ] at high
  rw [count]
  split
  · next set =>
    rw [top] at set
    exact formSize_eq (by rw [pow_succ, pow_succ]; omega) (by rw [pow_succ, pow_succ]; omega)
  · next clear =>
    rw [top] at clear
    exact formSize_eq (by rw [pow_succ]; omega) (by rw [pow_succ]; omega)

theorem leadingBytes_eq (positive : value ≠ 0) :
    leadingBytes value = value / 256 ^ (formSize value - 3) * 256 ^ (formSize value - 3) := by
  rw [leadingBytes, formSize_eq_digitCount positive, keepLeading]
  split
  · rw [Nat.add_sub_add_right (digitCount 256 value) 1 2]
  · rfl

/-- The mantissa times its power is the value that is kept. -/
theorem mantissa_mul (value size : Nat) :
    value * 256 ^ 3 / 256 ^ size * 256 ^ size = value / 256 ^ (size - 3) * 256 ^ (size - 3) * 256 ^ 3 := by
  rcases le_total size 3 with short | long
  · have power : 256 ^ 3 = 256 ^ (3 - size) * 256 ^ size := (pow_sub_mul_pow 256 short).symm
    rw [Nat.sub_eq_zero_of_le short, pow_zero, Nat.div_one, mul_one, power, ← Nat.mul_assoc,
      Nat.mul_div_cancel _ (by positivity)]
  · have power : 256 ^ size = 256 ^ (size - 3) * 256 ^ 3 := (pow_sub_mul_pow 256 long).symm
    rw [power, Nat.mul_div_mul_right _ _ (by positivity), Nat.mul_assoc]

/-- A mantissa and an exponent that stand for a value exactly are unpacked to it. -/
theorem unpack_of_eq (bound : value < 2 ^ 256) (exact : word * 256 ^ size = value * 256 ^ 3) :
    unpack word size = value := by
  unfold unpack
  split
  · next short =>
    have power : 256 ^ 3 = 256 ^ (3 - size) * 256 ^ size := (pow_sub_mul_pow 256 short).symm
    rw [power, ← Nat.mul_assoc] at exact
    rw [Nat.eq_of_mul_eq_mul_right (by positivity) exact, Nat.mul_div_cancel _ (by positivity)]
  · next long =>
    have power : 256 ^ size = 256 ^ (size - 3) * 256 ^ 3 := (pow_sub_mul_pow 256 (by omega)).symm
    rw [power, ← Nat.mul_assoc] at exact
    rw [Nat.eq_of_mul_eq_mul_right (by positivity) exact, Nat.mod_eq_of_lt bound]

/-- The word and size of a compact value without sign bit are read back. -/
theorem u256FromCompact_of_unsigned (unsigned : compact.toNat % 2 ^ 24 < 2 ^ 23) :
    u256FromCompact compact = unpack (compact.toNat % 2 ^ 24) (compact.toNat / 2 ^ 24) := by
  have word : compact.toNat % 2 ^ 23 = compact.toNat % 2 ^ 24 := by omega
  rw [u256FromCompact_eq, word]

/-- The compact form of a value that is not zero. -/
theorem compactForm_parts (positive : value ≠ 0) (bound : value < 2 ^ 256) :
    (compactForm value).toNat % 2 ^ 24 = value * 256 ^ 3 / 256 ^ formSize value ∧
      (compactForm value).toNat / 2 ^ 24 = formSize value ∧
      NormalForm (value * 256 ^ 3 / 256 ^ formSize value) (formSize value) := by
  obtain ⟨low, high⟩ := formSize_bounds positive
  have least : 2 ^ 15 ≤ value * 256 ^ 3 / 256 ^ formSize value := (Nat.le_div_iff_mul_le (by positivity)).mpr low
  have unsigned : value * 256 ^ 3 / 256 ^ formSize value < 2 ^ 23 := (Nat.div_lt_iff_lt_mul (by positivity)).mpr high
  have log : Nat.log2 value < 256 := (Nat.log2_lt positive).mpr bound
  have size : formSize value = (Nat.log2 value + 1) / 8 + 1 := rfl
  have whole : (compactForm value).toNat = value * 256 ^ 3 / 256 ^ formSize value + formSize value * 2 ^ 24 := by
    rw [compactForm, if_neg positive]
    change (UInt32.ofNat (value * 256 ^ 3 / 256 ^ formSize value + formSize value * 2 ^ 24)).toNat = _
    rw [UInt32.toNat_ofNat']
    exact Nat.mod_eq_of_lt (by omega)
  refine ⟨by omega, by omega, least, unsigned, by omega, ?_, ?_⟩
  · by_cases short : formSize value ≤ 32
    · exact Or.inl short
    · have last : formSize value = 33 := by omega
      refine Or.inr ⟨last, ?_⟩
      rw [last, Nat.div_lt_iff_lt_mul (by positivity)]
      have power : (2 : Nat) ^ 16 * 256 ^ 33 = 2 ^ 256 * 256 ^ 3 := by norm_num
      rw [power]
      exact Nat.mul_lt_mul_of_pos_right bound (by positivity)
  · rcases le_total (formSize value) 3 with short | long
    · have power : 256 ^ 3 = 256 ^ (3 - formSize value) * 256 ^ formSize value :=
        (pow_sub_mul_pow 256 short).symm
      rw [power, ← Nat.mul_assoc, Nat.mul_div_cancel _ (by positivity)]
      exact Nat.dvd_mul_left _ _
    · rw [Nat.sub_eq_zero_of_le long, pow_zero]
      exact Nat.one_dvd _

theorem normal_compactForm (bound : value < 2 ^ 256) : Normal (compactForm value) := by
  by_cases zero : value = 0
  · exact Or.inl (by rw [zero]; rfl)
  · obtain ⟨word, size, normal⟩ := compactForm_parts zero bound
    exact Or.inr (by rw [word, size]; exact normal)

theorem u256FromCompact_compactForm (bound : value < 2 ^ 256) :
    u256FromCompact (compactForm value) = leadingBytes value := by
  by_cases zero : value = 0
  · rw [zero]
    rfl
  · obtain ⟨word, size, normal⟩ := compactForm_parts zero bound
    have kept := leadingBytes_eq zero
    rw [u256FromCompact_of_unsigned (by rw [word]; exact normal.unsigned), word, size]
    refine unpack_of_eq (lt_of_le_of_lt keepLeading_le bound) ?_
    rw [mantissa_mul, ← kept]

/-- A normal form stands for a value exactly, and is that value's compact form. -/
theorem NormalForm.exists_value (normal : NormalForm word size) :
    ∃ value < 2 ^ 256, word * 256 ^ size = value * 256 ^ 3 := by
  obtain ⟨least, unsigned, sized, fits, whole⟩ := normal
  have bound : word * 256 ^ size < 2 ^ 256 * 256 ^ 3 := by
    rcases fits with short | ⟨rfl, narrow⟩
    · calc word * 256 ^ size ≤ word * 256 ^ 32 := Nat.mul_le_mul_left _ (Nat.pow_le_pow_right (by omega) short)
        _ < 2 ^ 23 * 256 ^ 32 := Nat.mul_lt_mul_of_pos_right unsigned (by positivity)
        _ < 2 ^ 256 * 256 ^ 3 := by norm_num
    · calc word * 256 ^ 33 < 2 ^ 16 * 256 ^ 33 := Nat.mul_lt_mul_of_pos_right narrow (by positivity)
        _ = 2 ^ 256 * 256 ^ 3 := by norm_num
  obtain ⟨value, exact⟩ : 256 ^ 3 ∣ word * 256 ^ size := by
    rcases le_total size 3 with short | long
    · obtain ⟨value, rfl⟩ := whole
      refine ⟨value, ?_⟩
      rw [Nat.mul_right_comm, pow_sub_mul_pow 256 short]
    · exact Nat.dvd_mul_left_of_dvd (Nat.pow_dvd_pow 256 long) word
  rw [exact, Nat.mul_comm] at bound
  exact ⟨value, Nat.lt_of_mul_lt_mul_right bound, by rw [exact, Nat.mul_comm]⟩

theorem compactForm_of_normal (normal : Normal compact) :
    u256FromCompact compact < 2 ^ 256 ∧ compactForm (u256FromCompact compact) = compact := by
  refine ⟨u256FromCompact_lt compact, ?_⟩
  rcases normal with rfl | normal
  · rfl
  · obtain ⟨value, bound, exact⟩ := normal.exists_value
    have size : formSize value = compact.toNat / 2 ^ 24 := by
      refine formSize_eq ?_ ?_
      · rw [← exact]
        exact Nat.mul_le_mul_right _ normal.least
      · rw [← exact]
        exact Nat.mul_lt_mul_of_pos_right normal.unsigned (by positivity)
    have positive : value ≠ 0 := by
      rintro rfl
      have power : 0 < 256 ^ (compact.toNat / 2 ^ 24) := by positivity
      have none := Nat.mul_eq_zero.mp (exact.trans (Nat.zero_mul _))
      have least := normal.least
      omega
    rw [u256FromCompact_of_unsigned normal.unsigned, unpack_of_eq bound exact]
    obtain ⟨word, exponent, _⟩ := compactForm_parts positive bound
    have same : value * 256 ^ 3 / 256 ^ formSize value = compact.toNat % 2 ^ 24 := by
      rw [size, ← exact, Nat.mul_div_cancel _ (by positivity)]
    refine UInt32.toNat_inj.mp ?_
    omega

/-- Encoding keeps the leading bytes, the encoder produces exactly the normal forms, and it encodes
what such a form stands for as this form. -/
theorem compactFromU256_codec :
    (∀ value < 2 ^ 256, ∃ compact, compactFromU256 value = .ok compact ∧
      u256FromCompact compact = leadingBytes value ∧ leadingBytes value ≤ value) ∧
    (∀ compact, Normal compact ↔ ∃ value < 2 ^ 256, compactFromU256 value = .ok compact) ∧
    ∀ compact, Normal compact → compactFromU256 (u256FromCompact compact) = .ok compact := by
  refine ⟨fun value bound => ?_, fun compact => ⟨fun normal => ?_, ?_⟩, fun compact normal => ?_⟩
  · exact ⟨compactForm value, compactFromU256_eq_compactForm bound, u256FromCompact_compactForm bound, keepLeading_le⟩
  · obtain ⟨bound, same⟩ := compactForm_of_normal normal
    exact ⟨_, bound, by rw [compactFromU256_eq_compactForm bound, same]⟩
  · rintro ⟨value, bound, encoded⟩
    cases (compactFromU256_eq_compactForm bound).symm.trans encoded
    exact normal_compactForm bound
  · obtain ⟨bound, same⟩ := compactForm_of_normal normal
    rw [compactFromU256_eq_compactForm bound, same]

/-- The greatest target, and the bits of the first header. -/
theorem compactFromU256_codec_limit :
    (∃ compact, compactFromU256 powLimit = .ok compact ∧ u256FromCompact compact = leadingBytes powLimit ∧
      leadingBytes powLimit ≤ powLimit) ∧
    compactFromU256 (u256FromCompact 0x1d00ffff) = .ok 0x1d00ffff := by
  obtain ⟨encodes, _, decodes⟩ := compactFromU256_codec
  exact ⟨encodes powLimit (by norm_num [powLimit]),
    decodes 0x1d00ffff (Or.inr ⟨by decide, by decide, by decide, by decide, by decide⟩)⟩

end Bitlens

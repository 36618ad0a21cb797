import Mathlib.Data.Nat.Bitwise
import Bitlens.Lib.Bytes
import Mathlib.Data.Nat.Digits.Lemmas

namespace Bitlens.Lib

section Digits

/-- The number of digits to a base, which is zero for zero. -/
def digitCount (b value : Nat) : Nat := (Nat.digits b value).length

def leadingDigit (b value : Nat) : Nat := value / b ^ (digitCount b value - 1)

/-- The value with every digit behind its `n` leading ones cleared. -/
def keepLeading (b n value : Nat) : Nat := value / b ^ (digitCount b value - n) * b ^ (digitCount b value - n)

variable {b n k value : Nat}

theorem digitCount_le_iff (base : 1 < b) : digitCount b value ≤ k ↔ value < b ^ k :=
  Nat.digits_length_le_iff base value

theorem lt_pow_digitCount (base : 1 < b) : value < b ^ digitCount b value :=
  (digitCount_le_iff base).mp le_rfl

theorem pow_le_of_pos (base : 1 < b) (positive : 0 < value) : b ^ (digitCount b value - 1) ≤ value := by
  by_contra small
  have few := (digitCount_le_iff base).mpr (not_le.mp small)
  have none : digitCount b value ≤ 0 := by omega
  rw [digitCount_le_iff base, pow_zero] at none
  omega

theorem le_leadingDigit_iff (base : 1 < b) {d : Nat} :
    d ≤ leadingDigit b value ↔ d * b ^ (digitCount b value - 1) ≤ value :=
  Nat.le_div_iff_mul_le (pow_pos (by omega) _)

theorem keepLeading_le : keepLeading b n value ≤ value :=
  Nat.div_mul_le_self _ _

end Digits

/-- What a little-endian string stands for: the top bit of its last byte is the sign, the bits below
it are the magnitude. -/
def signMagnitude (bytes : Bytes) : Int :=
  let sign := 2 ^ (8 * bytes.length - 1)
  if leNat bytes < sign then leNat bytes else -((leNat bytes - sign : Nat) : Int)

/-- The one string of its length that stands for the number, and none does that is shorter. -/
structure ShortestSigned (n : Int) (bytes : Bytes) : Prop where
  value : signMagnitude bytes = n
  least : ∀ other, signMagnitude other = n → bytes.length ≤ other.length
  unique : ∀ other, signMagnitude other = n → other.length = bytes.length → other = bytes

variable {bytes other : Bytes} {n : Int}

theorem leNat_append (front back : Bytes) : leNat (front ++ back) = leNat front + 256 ^ front.length * leNat back := by
  induction front with
  | nil => rw [List.nil_append, leNat, List.length_nil, pow_zero, one_mul, Nat.zero_add]
  | cons byte front ih =>
    rw [List.cons_append, leNat, leNat, ih, List.length_cons, pow_succ']
    ring

theorem leNat_concat (front : Bytes) (last : UInt8) :
    leNat (front ++ [last]) = leNat front + 256 ^ front.length * last.toNat := by
  rw [leNat_append, leNat, leNat, Nat.mul_zero, Nat.add_zero]

/-- The digit above `width` bytes is the next byte. -/
theorem leBytes_succ (width value : Nat) :
    leBytes (width + 1) value = leBytes width value ++ [UInt8.ofNat (value / 256 ^ width % 256)] := by
  induction width generalizing value with
  | zero => rw [leBytes, leBytes, leBytes, pow_zero, Nat.div_one, List.nil_append]
  | succ width ih => rw [leBytes, ih, leBytes, List.cons_append, Nat.div_div_eq_div_mul, ← pow_succ']

theorem leNat_inj (length : bytes.length = other.length) (same : leNat bytes = leNat other) : bytes = other := by
  rw [← leBytes_leNat bytes, ← leBytes_leNat other, length, same]

/-- The sign is the upper half of the string's range. -/
theorem leNat_lt_sign (some : bytes ≠ []) : leNat bytes < 2 * 2 ^ (8 * bytes.length - 1) := by
  have bound := leNat_lt bytes
  have length := List.length_pos_iff.mpr some
  have power : 256 ^ bytes.length = 2 * 2 ^ (8 * bytes.length - 1) := by
    rw [← pow_succ', Nat.sub_add_cancel (by omega), pow_mul]
    norm_num
  omega

theorem signMagnitude_bound (bytes : Bytes) : (signMagnitude bytes).natAbs < 2 ^ (8 * bytes.length - 1) := by
  unfold signMagnitude
  dsimp only
  split
  · next below => simpa using below
  · next above =>
    cases bytes with
    | nil => exact absurd (by decide) above
    | cons byte rest =>
      have bound := leNat_lt_sign (List.cons_ne_nil byte rest)
      omega

/-- The last byte tells the sign, and the top digit of the magnitude. -/
theorem signMagnitude_concat (front : Bytes) (last : UInt8) : signMagnitude (front ++ [last]) =
    if last.toNat < 128 then ((leNat front + 256 ^ front.length * last.toNat : Nat) : Int)
    else -((leNat front + 256 ^ front.length * (last.toNat - 128) : Nat) : Int) := by
  have low := leNat_lt front
  have power : 2 ^ (8 * (front ++ [last]).length - 1) = 256 ^ front.length * 128 := by
    have exponent : 8 * (front.length + 1) - 1 = 8 * front.length + 7 := by omega
    rw [List.length_append, List.length_singleton, exponent, pow_add, pow_mul]
    norm_num
  rw [signMagnitude, power, leNat_concat]
  split
  · next below =>
    rw [if_pos]
    by_contra set
    have least : 256 ^ front.length * 128 ≤ 256 ^ front.length * last.toNat := Nat.mul_le_mul_left _ (not_lt.mp set)
    omega
  · next above =>
    have set : ¬ last.toNat < 128 := by
      intro clear
      have most : 256 ^ front.length * (last.toNat + 1) ≤ 256 ^ front.length * 128 := Nat.mul_le_mul_left _ clear
      rw [Nat.mul_add, Nat.mul_one] at most
      omega
    rw [if_neg set, Nat.mul_sub, Nat.add_sub_assoc (Nat.mul_le_mul_left _ (not_lt.mp set))]

/-- The sign bit of a byte. -/
theorem and_sign_ne_zero_iff (byte : UInt8) : byte &&& 0x80 ≠ 0 ↔ 128 ≤ byte.toNat := by
  have small := byte.toNat_lt
  have bit : (byte &&& 0x80).toNat = (byte.toNat.testBit 7).toNat * 2 ^ 7 := by
    rw [UInt8.toNat_and]
    exact Nat.and_two_pow byte.toNat 7
  have value : byte.toNat.testBit 7 = decide (byte.toNat / 2 ^ 7 % 2 = 1) := Nat.testBit_eq_decide_div_mod_eq
  rw [ne_eq, ← UInt8.toNat_inj, bit, value]
  by_cases high : byte.toNat / 2 ^ 7 % 2 = 1
  · simp only [high, decide_true]
    exact iff_of_true (by decide) (by omega)
  · simp only [high, decide_false]
    exact iff_of_false (by decide) (by omega)

theorem toNat_or_sign {byte : UInt8} (clear : byte.toNat < 128) : (byte ||| 0x80).toNat = byte.toNat + 128 := by
  rw [UInt8.toNat_or, Nat.or_comm]
  exact (Nat.two_pow_add_eq_or_of_lt (i := 7) clear 1).symm.trans (Nat.add_comm _ _)

/-- A number other than zero has one string of each length at most. -/
theorem signMagnitude_inj (nonzero : n ≠ 0) (value : signMagnitude bytes = n) (value' : signMagnitude other = n)
    (length : bytes.length = other.length) : bytes = other := by
  refine leNat_inj length ?_
  unfold signMagnitude at value value'
  dsimp only at value value'
  rw [length] at value
  split at value <;> split at value' <;> omega

/-- A string stands for the number as short as possible if the magnitude does not fit in a byte less. -/
theorem shortestSigned_of_le (value : signMagnitude bytes = n)
    (tight : 2 ^ (8 * (bytes.length - 1) - 1) ≤ n.natAbs) : ShortestSigned n bytes where
  value := value
  least other value' := by
    by_contra shorter
    have bound := signMagnitude_bound other
    rw [value'] at bound
    have room : 2 ^ (8 * other.length - 1) ≤ 2 ^ (8 * (bytes.length - 1) - 1) :=
      Nat.pow_le_pow_right (by omega) (by omega)
    omega
  unique other value' length := by
    have power : 0 < 2 ^ (8 * (bytes.length - 1) - 1) := by positivity
    exact signMagnitude_inj (by omega) value' value length

theorem shortestSigned_zero : ShortestSigned 0 [] where
  value := rfl
  least _ _ := Nat.zero_le _
  unique _ _ := List.length_eq_zero_iff.mp

end Bitlens.Lib

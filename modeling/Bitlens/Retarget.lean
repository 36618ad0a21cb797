import Bitlens.GrownChain

namespace Bitlens
open Lib

/-! The retarget rule with a signed timespan. -/

/-- The compact form of a value: the least number of bytes that leaves the sign bit
clear, and the three bytes at the top of that many. -/
def compactForm (value : Nat) : UInt32 :=
  if value = 0 then 0
  else
    let size := (Nat.log2 value + 1) / 8 + 1
    UInt32.ofNat (value * 256 ^ 3 / 256 ^ size + size * 2 ^ 24)

/-- The seconds from the first to the last header of a period, which may be negative,
kept within a factor of four. -/
def signedTimespan (last first : UInt32) : Int :=
  max (powTargetTimespan / 4 : Nat) (min (powTargetTimespan * 4 : Nat) ((last.toNat : Int) - first.toNat))

def nextWorkRequired (last first bits : UInt32) : UInt32 :=
  compactForm (min powLimit (u256FromCompact bits * (signedTimespan last first).toNat / powTargetTimespan))

example : nextWorkRequired 0 1 0x1d00ffff = 0x1c3fffc0 := by decide +kernel

/-- The top bit of the compact word is set when the value fills its bytes. -/
theorem compactWord_high_iff {value : Nat} (positive : value ≠ 0) :
    2 ^ 23 ≤ compactWord value ↔ 8 * u256Size value = Nat.log2 value + 1 := by
  have size : u256Size value = (Nat.log2 value + 1 + 7) / 8 := by rw [u256Size, if_neg positive]
  have top : 2 ^ 23 ≤ compactWord value ↔ 2 ^ (8 * u256Size value - 1) ≤ value := by
    unfold compactWord
    split
    · next short =>
      have power : (2 : Nat) ^ 23 = 2 ^ (8 * u256Size value - 1) * 256 ^ (3 - u256Size value) := by
        rw [← two_pow_eight_mul, ← pow_add]
        congr 1
        omega
      rw [power]
      exact Nat.mul_le_mul_right_iff (by positivity)
    · next long =>
      rw [Nat.le_div_iff_mul_le (by positivity), ← two_pow_eight_mul, ← pow_add]
      have exponent : 23 + 8 * (u256Size value - 3) = 8 * u256Size value - 1 := by omega
      rw [exponent]
  rw [top, ← Nat.le_log2 positive]
  omega

theorem compactWord_eq (value : Nat) : compactWord value = value * 256 ^ 3 / 256 ^ u256Size value := by
  unfold compactWord
  split
  · next short =>
    have power : 256 ^ 3 = 256 ^ (3 - u256Size value) * 256 ^ u256Size value := by
      rw [← pow_add, Nat.sub_add_cancel short]
    rw [power, ← Nat.mul_assoc, Nat.mul_div_cancel _ (by positivity)]
  · next long =>
    have power : 256 ^ u256Size value = 256 ^ (u256Size value - 3) * 256 ^ 3 := by
      rw [← pow_add, Nat.sub_add_cancel (by omega)]
    rw [power, Nat.mul_div_mul_right _ _ (by positivity)]

/-- `compact_from_u256` computes the compact form. -/
theorem compactFromU256_eq_compactForm {value : Nat} (bound : value < 2 ^ 256) :
    compactFromU256 value = .ok (compactForm value) := by
  by_cases zero : value = 0
  · rw [zero]
    rfl
  have word := compactWord_lt value
  have size : u256Size value ≤ 32 := u256Size_le_iff.mpr (by norm_num at bound ⊢; exact bound)
  have bytes : u256Size value = (Nat.log2 value + 1 + 7) / 8 := by rw [u256Size, if_neg zero]
  rw [compactFromU256_eq, compactForm, if_neg zero]
  by_cases high : 2 ^ 23 ≤ compactWord value
  · have full := (compactWord_high_iff zero).mp high
    have next : (Nat.log2 value + 1) / 8 + 1 = u256Size value + 1 := by omega
    rw [if_pos high, pack_eq (by omega) (by omega), next, compactWord_eq, Nat.div_div_eq_div_mul, ← pow_succ,
      Nat.add_comm, Nat.mul_comm (2 ^ 24)]
  · have notFull := (compactWord_high_iff zero).not.mp high
    have same : (Nat.log2 value + 1) / 8 + 1 = u256Size value := by omega
    rw [if_neg high, pack_eq (by omega) (by omega), same, compactWord_eq, Nat.add_comm, Nat.mul_comm (2 ^ 24)]

theorem signedTimespan_of_le {last first : UInt32} (ordered : first.toNat ≤ last.toNat) :
    (signedTimespan last first).toNat = clampTimespan (last.toNat - first.toNat) := by
  unfold signedTimespan clampTimespan
  have quarter : powTargetTimespan / 4 = 302400 := rfl
  have four : powTargetTimespan * 4 = 4838400 := rfl
  rw [quarter, four]
  split
  · omega
  split <;> omega

/-- The retarget rule holds in every build exactly when the timestamps are in order: the
difference of two unsigned numbers panics or wraps otherwise. -/
theorem calculateNextWorkRequired_iff {last first bits : UInt32} (bounded : u256FromCompact bits ≤ powLimit) :
    (∀ p, calculateNextWorkRequired p last first bits = .ok (nextWorkRequired last first bits)) ↔
      first.toNat ≤ last.toNat := by
  constructor
  · intro follows
    by_contra reversed
    have panics := follows .dev
    rw [calculateNextWorkRequired, Chain.sub_dev_eq_fault (by omega), Outcome.fault_bind] at panics
    cases panics
  · intro ordered p
    have limit : powLimit < 2 ^ 256 := by norm_num [powLimit]
    rw [calculateNextWorkRequired_eq (Profile.sub_of_le ordered) bounded, nextWorkRequired, signedTimespan_of_le ordered,
      compactFromU256_eq_compactForm (lt_of_le_of_lt (min_le_left _ _) limit)]

theorem calculateNextWorkRequired_iff_genesis :
    (∀ p, calculateNextWorkRequired p 1231006505 1231006505 0x1d00ffff =
      .ok (nextWorkRequired 1231006505 1231006505 0x1d00ffff)) ↔
      (1231006505 : UInt32).toNat ≤ (1231006505 : UInt32).toNat :=
  calculateNextWorkRequired_iff (by decide)

/-- A period whose last header is one second older than its first: the development build
panics, the other one gives the easiest target and not the hardest. -/
theorem calculateNextWorkRequired_fails :
    ¬ ∃ p, ∀ last first bits : UInt32, 1 ≤ u256FromCompact bits → u256FromCompact bits ≤ powLimit →
      calculateNextWorkRequired p last first bits = .ok (nextWorkRequired last first bits) := by
  intro ⟨p, claim⟩
  have follows := claim 0 1 0x1d00ffff (by decide) (by decide)
  cases p with
  | dev => exact absurd follows (by decide +kernel)
  | release => exact absurd follows (by decide +kernel)

end Bitlens

import Mathlib.Data.Nat.Bitwise
import Mathlib.Tactic
import Bitlens.Pow

namespace Bitlens
open Lib

/-- The number a compact word and size stand for. -/
def unpack (word size : Nat) : Nat :=
  if size ≤ 3 then word / 256 ^ (3 - size) else word * 256 ^ (size - 3) % 2 ^ 256

theorem two_pow_eight_mul (n : Nat) : 2 ^ (8 * n) = 256 ^ n := by
  rw [pow_mul]
  norm_num

theorem u256FromCompact_eq (compact : UInt32) :
    u256FromCompact compact = unpack (compact.toNat % 2 ^ 23) (compact.toNat / 2 ^ 24) := by
  have word : compact.toNat &&& 0x007FFFFF = compact.toNat % 2 ^ 23 := Nat.and_two_pow_sub_one_eq_mod compact.toNat 23
  have size : compact.toNat >>> 24 = compact.toNat / 2 ^ 24 := Nat.shiftRight_eq_div_pow compact.toNat 24
  unfold u256FromCompact unpack
  rw [word, size]
  simp only [Nat.shiftRight_eq_div_pow, Nat.shiftLeft_eq, two_pow_eight_mul]

theorem u256FromCompact_lt (compact : UInt32) : u256FromCompact compact < 2 ^ 256 := by
  rw [u256FromCompact_eq, unpack]
  split
  · have word := Nat.mod_lt compact.toNat (show 0 < 2 ^ 23 by norm_num)
    have below := Nat.div_le_self (compact.toNat % 2 ^ 23) (256 ^ (3 - compact.toNat / 2 ^ 24))
    omega
  · exact Nat.mod_lt _ (by norm_num)

theorem pack_eq {word size : Nat} (small : word < 2 ^ 24) (bound : size < 2 ^ 8) :
    word ||| size <<< 24 % 2 ^ 32 = 2 ^ 24 * size + word := by
  have shifted : size <<< 24 % 2 ^ 32 = 2 ^ 24 * size := by
    rw [Nat.shiftLeft_eq, Nat.mod_eq_of_lt (by omega), Nat.mul_comm]
  rw [shifted, Nat.or_comm, Nat.two_pow_add_eq_or_of_lt small]

/-- A word below the sign bit and a size of one byte are read back from their packing. -/
theorem u256FromCompact_pack {word size : Nat} (small : word < 2 ^ 23) (bound : size < 2 ^ 8) :
    u256FromCompact (UInt32.ofNat (word ||| size <<< 24 % 2 ^ 32)) = unpack word size := by
  have whole : (UInt32.ofNat (2 ^ 24 * size + word)).toNat = 2 ^ 24 * size + word := by
    rw [UInt32.toNat_ofNat']
    exact Nat.mod_eq_of_lt (by omega)
  have low : (2 ^ 24 * size + word) % 2 ^ 23 = word := by omega
  have high : (2 ^ 24 * size + word) / 2 ^ 24 = size := by omega
  rw [pack_eq (by omega) bound, u256FromCompact_eq, whole, low, high]

theorem u256Size_le_iff {value k : Nat} : u256Size value ≤ k ↔ value < 256 ^ k := by
  unfold u256Size
  by_cases zero : value = 0
  · rw [if_pos zero, zero]
    simp
  · rw [if_neg zero, ← two_pow_eight_mul, ← Nat.log2_lt zero]
    omega

theorem u256AsU32_of_lt {value : Nat} (small : value < 2 ^ 32) : u256AsU32 value = .ok value := by
  rw [u256AsU32, if_pos small]

/-- The sign bit of a word of three bytes. -/
theorem sign_iff {word : Nat} (bound : word < 2 ^ 24) : word &&& 0x00800000 = 0x00800000 ↔ 2 ^ 23 ≤ word := by
  have bit : word &&& 2 ^ 23 = (word.testBit 23).toNat * 2 ^ 23 := Nat.and_two_pow word 23
  have value : word.testBit 23 = decide (word / 2 ^ 23 % 2 = 1) := Nat.testBit_eq_decide_div_mod_eq
  change word &&& 2 ^ 23 = 2 ^ 23 ↔ _
  rw [bit, value]
  by_cases high : word / 2 ^ 23 % 2 = 1
  · simp only [high, decide_true, Bool.toNat_true, one_mul, true_iff]
    omega
  · simp only [high, decide_false, Bool.toNat_false, zero_mul]
    omega

/-- The word that `compact_from_u256` takes from a value, before the sign bit is
moved away. -/
def compactWord (value : Nat) : Nat :=
  if u256Size value ≤ 3 then value * 256 ^ (3 - u256Size value) else value / 256 ^ (u256Size value - 3)

theorem compactWord_lt (value : Nat) : compactWord value < 2 ^ 24 := by
  have bound : value < 256 ^ u256Size value := u256Size_le_iff.mp le_rfl
  unfold compactWord
  split
  · next short =>
    calc value * 256 ^ (3 - u256Size value)
        < 256 ^ u256Size value * 256 ^ (3 - u256Size value) := Nat.mul_lt_mul_of_pos_right bound (by positivity)
      _ = 256 ^ 3 := by rw [← pow_add, Nat.add_sub_cancel' short]
  · next long =>
    have split : 256 ^ u256Size value = 2 ^ 24 * 256 ^ (u256Size value - 3) := by
      rw [show (2 : Nat) ^ 24 = 256 ^ 3 by norm_num, ← pow_add]
      congr 1
      omega
    exact Nat.div_lt_of_lt_mul (by rw [Nat.mul_comm, ← split]; exact bound)

/-- The top byte of a value that does not fit three bytes is not zero. -/
theorem le_compactWord {value : Nat} (long : 3 < u256Size value) : 2 ^ 16 ≤ compactWord value := by
  have filled : ¬ value < 256 ^ (u256Size value - 1) := by
    intro small
    have := u256Size_le_iff.mpr small
    omega
  have split : 256 ^ (u256Size value - 1) = 2 ^ 16 * 256 ^ (u256Size value - 3) := by
    rw [show (2 : Nat) ^ 16 = 256 ^ 2 by norm_num, ← pow_add]
    congr 1
    omega
  rw [compactWord, if_neg (by omega), Nat.le_div_iff_mul_le (by positivity), ← split]
  omega

theorem compactFromU256_eq (value : Nat) :
    compactFromU256 value = .ok (if 2 ^ 23 ≤ compactWord value
      then UInt32.ofNat (compactWord value / 256 ||| (u256Size value + 1) <<< 24 % 2 ^ 32)
      else UInt32.ofNat (compactWord value ||| u256Size value <<< 24 % 2 ^ 32)) := by
  have word := compactWord_lt value
  have finish : (if compactWord value &&& 0x00800000 = 0x00800000
      then (.ok (UInt32.ofNat (compactWord value >>> 8 ||| (u256Size value + 1) <<< 24 % 2 ^ 32)) : Outcome UInt32)
      else .ok (UInt32.ofNat (compactWord value ||| u256Size value <<< 24 % 2 ^ 32))) =
      .ok (if 2 ^ 23 ≤ compactWord value
        then UInt32.ofNat (compactWord value / 256 ||| (u256Size value + 1) <<< 24 % 2 ^ 32)
        else UInt32.ofNat (compactWord value ||| u256Size value <<< 24 % 2 ^ 32)) := by
    simp only [sign_iff word, Nat.shiftRight_eq_div_pow]
    split <;> rfl
  unfold compactFromU256
  dsimp only [Outcome.pure_def]
  by_cases short : u256Size value ≤ 3
  · have small : value < 2 ^ 32 := by
      have := Nat.pow_le_pow_right (show 0 < 256 by norm_num) short
      have := u256Size_le_iff.mp (le_refl (u256Size value))
      omega
    have taken : (fun v => v <<< (8 * (3 - u256Size value)) % 2 ^ 32) <$> u256AsU32 value =
        .ok (compactWord value) := by
      rw [compactWord, if_pos short] at word ⊢
      rw [u256AsU32_of_lt small]
      change Outcome.ok (value <<< (8 * (3 - u256Size value)) % 2 ^ 32) = _
      rw [Nat.shiftLeft_eq, two_pow_eight_mul, Nat.mod_eq_of_lt (by omega)]
    rw [if_pos short, taken, Outcome.ok_bind, finish]
  · have taken : u256AsU32 (value >>> (8 * (u256Size value - 3))) = .ok (compactWord value) := by
      rw [compactWord, if_neg short] at word ⊢
      rw [Nat.shiftRight_eq_div_pow, two_pow_eight_mul, u256AsU32_of_lt (by omega)]
    rw [if_neg short, taken, Outcome.ok_bind, finish]

theorem compactWord_of_le {value : Nat} (long : 3 ≤ u256Size value) :
    compactWord value = value / 256 ^ (u256Size value - 3) := by
  unfold compactWord
  split
  · next short =>
    have three : u256Size value = 3 := le_antisymm short long
    rw [three]
    simp
  · rfl

theorem unpack_of_le {word size value : Nat} (bound : value < 2 ^ 256) (long : 3 ≤ size)
    (below : word * 256 ^ (size - 3) ≤ value) : unpack word size = word * 256 ^ (size - 3) := by
  unfold unpack
  split
  · next short =>
    have three : size = 3 := le_antisymm short long
    rw [three]
    simp
  · exact Nat.mod_eq_of_lt (lt_of_le_of_lt below bound)

/-- Writing a value in the compact form and reading it back can only lower it, and
never to zero. -/
theorem compactFromU256_spec {value : Nat} (bound : value < 2 ^ 256) :
    ∃ compact, compactFromU256 value = .ok compact ∧ u256FromCompact compact ≤ value ∧
      (0 < value → 0 < u256FromCompact compact) := by
  refine ⟨_, compactFromU256_eq value, ?_⟩
  have word := compactWord_lt value
  have size : u256Size value ≤ 32 := u256Size_le_iff.mpr (by norm_num at bound ⊢; exact bound)
  by_cases high : 2 ^ 23 ≤ compactWord value
  · rw [if_pos high, u256FromCompact_pack (by omega) (by omega)]
    by_cases short : u256Size value ≤ 2
    · have shifted : compactWord value = value * 256 ^ (2 - u256Size value) * 256 := by
        rw [compactWord, if_pos (by omega), Nat.mul_assoc, ← pow_succ]
        congr 2
        omega
      have exact : unpack (compactWord value / 256) (u256Size value + 1) = value := by
        rw [unpack, if_pos (by omega), shifted, Nat.mul_div_cancel _ (by norm_num),
          show 3 - (u256Size value + 1) = 2 - u256Size value by omega, Nat.mul_div_cancel _ (by positivity)]
      rw [exact]
      exact ⟨le_rfl, id⟩
    · have below : compactWord value / 256 * 256 ^ (u256Size value + 1 - 3) ≤ value := by
        have power : 256 ^ (u256Size value + 1 - 3) = 256 * 256 ^ (u256Size value - 3) := by
          rw [← pow_succ']
          congr 1
          omega
        calc compactWord value / 256 * 256 ^ (u256Size value + 1 - 3)
            = compactWord value / 256 * 256 * 256 ^ (u256Size value - 3) := by rw [power, Nat.mul_assoc]
          _ ≤ compactWord value * 256 ^ (u256Size value - 3) :=
              Nat.mul_le_mul_right _ (Nat.div_mul_le_self _ _)
          _ ≤ value := by
              rw [compactWord_of_le (by omega)]
              exact Nat.div_mul_le_self _ _
      rw [unpack_of_le bound (by omega) below]
      have positive : 0 < compactWord value / 256 := by omega
      exact ⟨below, fun _ => by positivity⟩
  · rw [if_neg high, u256FromCompact_pack (by omega) (by omega)]
    by_cases short : u256Size value ≤ 3
    · have exact : unpack (compactWord value) (u256Size value) = value := by
        rw [unpack, if_pos short, compactWord, if_pos short, Nat.mul_div_cancel _ (by positivity)]
      rw [exact]
      exact ⟨le_rfl, id⟩
    · have below : compactWord value * 256 ^ (u256Size value - 3) ≤ value := by
        rw [compactWord_of_le (by omega)]
        exact Nat.div_mul_le_self _ _
      rw [unpack_of_le bound (by omega) below]
      have positive : 0 < compactWord value := by
        have := le_compactWord (show 3 < u256Size value by omega)
        omega
      exact ⟨below, fun _ => by positivity⟩

/-! The required bits and the work of a header. -/

/-- `actual_timestamp` of a period: the seconds from its first to its last header,
kept within a factor of four. -/
def clampTimespan (elapsed : Nat) : Nat :=
  if elapsed < powTargetTimespan / 4 then powTargetTimespan / 4
  else if elapsed > powTargetTimespan * 4 then powTargetTimespan * 4
  else elapsed

theorem clampTimespan_bounds (elapsed : Nat) :
    powTargetTimespan / 4 ≤ clampTimespan elapsed ∧ clampTimespan elapsed ≤ powTargetTimespan * 4 := by
  unfold clampTimespan
  split
  · norm_num [powTargetTimespan]
  split
  · norm_num [powTargetTimespan]
  · omega

/-- The product of a target below the limit and a clamped timespan fits 256 bits. -/
theorem scale_ok {target actual : Nat} (bounded : target ≤ powLimit) (long : actual ≤ powTargetTimespan * 4) :
    u256Mul target actual = .ok (target * actual) ∧
      u256Div (target * actual) powTargetTimespan = .ok (target * actual / powTargetTimespan) := by
  have product : target * actual ≤ powLimit * (powTargetTimespan * 4) := Nat.mul_le_mul bounded long
  have fits : powLimit * (powTargetTimespan * 4) < 2 ^ 256 := by norm_num [powLimit, powTargetTimespan]
  have period : powTargetTimespan ≠ 0 := by norm_num [powTargetTimespan]
  rw [u256Mul, if_pos (lt_of_le_of_lt product fits), u256Div, if_neg period]
  exact ⟨rfl, rfl⟩

/-- The retarget rule fails only on the subtraction of the timestamps. -/
theorem calculateNextWorkRequired_eq {p : Profile} {last first bits : UInt32} {elapsed : Nat}
    (difference : p.sub 32 last.toNat first.toNat = .ok elapsed) (bounded : u256FromCompact bits ≤ powLimit) :
    calculateNextWorkRequired p last first bits =
      compactFromU256 (min powLimit (u256FromCompact bits * clampTimespan elapsed / powTargetTimespan)) := by
  obtain ⟨product, quotient⟩ := scale_ok bounded (clampTimespan_bounds elapsed).2
  rw [calculateNextWorkRequired, difference, Outcome.ok_bind]
  change (u256Mul (u256FromCompact bits) (clampTimespan elapsed) >>= fun scaled =>
    u256Div scaled powTargetTimespan >>= fun difficulty => _) = _
  rw [product, Outcome.ok_bind, quotient, Outcome.ok_bind]
  congr 1
  split <;> omega

/-- The target of the result stays below the limit, and above zero when the old one is at
least four. -/
theorem calculateNextWorkRequired_ok {p : Profile} {last first bits : UInt32} {elapsed : Nat}
    (difference : p.sub 32 last.toNat first.toNat = .ok elapsed) (bounded : u256FromCompact bits ≤ powLimit) :
    ∃ next, calculateNextWorkRequired p last first bits = .ok next ∧ u256FromCompact next ≤ powLimit ∧
      (4 ≤ u256FromCompact bits → 0 < u256FromCompact next) := by
  have small := min_le_left powLimit (u256FromCompact bits * clampTimespan elapsed / powTargetTimespan)
  obtain ⟨next, encoded, below, positive⟩ :=
    compactFromU256_spec (lt_of_le_of_lt small (show powLimit < 2 ^ 256 by norm_num [powLimit]))
  refine ⟨next, by rw [calculateNextWorkRequired_eq difference bounded, encoded], below.trans small,
    fun enough => positive ?_⟩
  have whole : powTargetTimespan ≤ u256FromCompact bits * clampTimespan elapsed := by
    calc powTargetTimespan = 4 * (powTargetTimespan / 4) := by norm_num [powTargetTimespan]
      _ ≤ u256FromCompact bits * clampTimespan elapsed := Nat.mul_le_mul enough (clampTimespan_bounds elapsed).1
  exact lt_min (by norm_num [powLimit]) (Nat.div_pos whole (by norm_num [powTargetTimespan]))

/-- `get_work` is `2 ^ 256 / (target + 1)`; only a zero target makes it overflow. -/
theorem getWork_eq {bits : UInt32} (bounded : u256FromCompact bits ≤ powLimit) :
    getWork bits = if u256FromCompact bits = 0 then .fault else .ok (2 ^ 256 / (u256FromCompact bits + 1)) := by
  have limit : powLimit < 2 ^ 224 := by norm_num [powLimit]
  have successor : u256Add (u256FromCompact bits) 1 = .ok (u256FromCompact bits + 1) := by
    rw [u256Add, if_pos (by omega)]
  unfold getWork
  dsimp only
  rw [successor, Outcome.ok_bind, u256Div, if_neg (by omega), Outcome.ok_bind]
  by_cases zero : u256FromCompact bits = 0
  · rw [if_pos zero, zero, u256Add, if_neg (by norm_num)]
  · have inverted : 2 ^ 256 - 1 - u256FromCompact bits + (u256FromCompact bits + 1) = 2 ^ 256 := by omega
    have quotient : (2 ^ 256 - 1 - u256FromCompact bits) / (u256FromCompact bits + 1) + 1 =
        2 ^ 256 / (u256FromCompact bits + 1) := by
      have whole := Nat.add_div_right (2 ^ 256 - 1 - u256FromCompact bits) (show 0 < u256FromCompact bits + 1 by omega)
      rw [inverted] at whole
      exact whole.symm
    have small : 2 ^ 256 / (u256FromCompact bits + 1) < 2 ^ 256 := Nat.div_lt_self (by norm_num) (by omega)
    rw [if_neg zero, u256Add, quotient, if_pos small]

theorem getWork_pos {bits : UInt32} {work : Nat} (result : getWork bits = .ok work) : 0 < work := by
  obtain ⟨divisor, _, result⟩ := Outcome.bind_eq_ok.mp result
  obtain ⟨quotient, _, result⟩ := Outcome.bind_eq_ok.mp result
  unfold u256Add at result
  split at result
  · cases result
    exact Nat.succ_pos _
  · cases result

end Bitlens

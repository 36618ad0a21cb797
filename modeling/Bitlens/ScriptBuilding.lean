import Bitlens.Lib.SignMagnitude
import Bitlens.ScriptOps

namespace Bitlens
open Lib

/-! Numbers in scripts. -/

/-- The loop of `serialize_i64` that pushes the bytes of the absolute value. -/
def pushBytes (absvalue : Nat) (result : Bytes) : Bytes :=
  if absvalue = 0 then result else pushBytes (absvalue >>> 8) (result ++ [UInt8.ofNat (absvalue &&& 0xFF)])
termination_by absvalue
decreasing_by
  rw [Nat.shiftRight_eq_div_pow]
  omega

def absvalue (p : Profile) (value : Int64) : Outcome Nat :=
  if value < 0 then p.add 64 (~~~value.toUInt64).toNat 1 else .ok value.toUInt64.toNat

/-- The end of `serialize_i64`: the sign is put into the last byte or into a new one. -/
def pushSign (neg : Bool) (result : Bytes) : Outcome Bytes := do
  let last ← Outcome.unwrap result.getLast?
  if last &&& 0x80 ≠ 0 then pure (result ++ [if neg then 0x80 else 0])
  else if neg then pure (result.dropLast ++ [last ||| 0x80])
  else pure result

def serializeI64 (p : Profile) (value : Int64) : Outcome Bytes :=
  if value = 0 then .ok []
  else do
    let absvalue ← absvalue p value
    pushSign (value < 0) (pushBytes absvalue [])

/-! Building scripts. -/

inductive AppendableToScript where
  | int64 (n : Int64)
  | dataSize (size : UInt32)
  | byteArray (items : Bytes)

def appendDataSize (script : Bytes) (size : UInt32) : Bytes :=
  if size < opPushdata1.toUInt32 then script ++ [size.toUInt8]
  else if size ≤ 0xFF then script ++ [opPushdata1] ++ [size.toUInt8]
  else if size ≤ 0xFFFF then script ++ [opPushdata2] ++ leBytes 2 size.toUInt16.toNat
  else script ++ [opPushdata4] ++ leBytes 4 size.toNat

def appendByteArray (script items : Bytes) : Bytes :=
  appendDataSize script (UInt32.ofNat items.length) ++ items

/-- `Script::append_item`. -/
def appendItem (p : Profile) (script : Bytes) : AppendableToScript → Outcome Bytes
  | .int64 n =>
    if n = -1 ∨ 1 ≤ n ∧ n ≤ 16 then
      .ok (script ++ [(n + (op1 - 1).toUInt64.toInt64).toUInt64.toUInt8])
    else if n = 0 then .ok (script ++ [op0])
    else do
      let serialized ← serializeI64 p n
      pure (appendByteArray script serialized)
  | .dataSize size => .ok (appendDataSize script size)
  | .byteArray items => .ok (appendByteArray script items)

def appendItems (p : Profile) : List AppendableToScript → Bytes → Outcome Bytes
  | [], script => .ok script
  | item :: items, script => do
    let script ← appendItem p script item
    appendItems p items script

variable {p : Profile} {value : Int64} {script : Bytes}

theorem pushBytes_eq (absvalue : Nat) (result : Bytes) :
    pushBytes absvalue result = result ++ leBytes (digitCount 256 absvalue) absvalue := by
  induction absvalue using Nat.strong_induction_on generalizing result with
  | _ absvalue ih =>
    rw [pushBytes]
    split
    · next zero =>
      rw [zero, digitCount, Nat.digits_zero]
      exact (List.append_nil _).symm
    · next nonzero =>
      have high : absvalue >>> 8 = absvalue / 256 := Nat.shiftRight_eq_div_pow absvalue 8
      have low : absvalue &&& 0xFF = absvalue % 256 := Nat.and_two_pow_sub_one_eq_mod absvalue 8
      have count : digitCount 256 absvalue = digitCount 256 (absvalue / 256) + 1 := by
        rw [digitCount, Nat.digits_def' (by omega) (Nat.pos_of_ne_zero nonzero), List.length_cons]
        rfl
      rw [high, low, ih _ (by omega), count, leBytes, List.append_assoc, List.singleton_append]

/-- The bit pattern of a signed number. -/
theorem toInt_eq (value : Int64) : value.toInt =
    if value < 0 then (value.toUInt64.toNat : Int) - 2 ^ 64 else (value.toUInt64.toNat : Int) := by
  have pattern : value.toInt = _ := BitVec.toInt_eq_toNat_cond value.toBitVec
  have same : value.toBitVec.toNat = value.toUInt64.toNat := by rw [← Int64.toBitVec_toUInt64]; rfl
  have bound := value.toUInt64.toNat_lt
  have sign : value < 0 ↔ value.toInt < 0 := Int64.lt_iff_toInt_lt
  rw [same] at pattern
  simp only [sign]
  split at pattern
  · rw [if_neg (by omega)]
    exact pattern
  · rw [if_pos (by omega)]
    simpa using pattern

/-- The sum that negates a number never overflows. -/
theorem absvalue_eq (p : Profile) (value : Int64) : absvalue p value = .ok value.toInt.natAbs := by
  have bound := value.toUInt64.toNat_lt
  have pattern := toInt_eq value
  have sign : value < 0 ↔ value.toInt < 0 := Int64.lt_iff_toInt_lt
  unfold absvalue
  split
  · next negative =>
    rw [if_pos negative] at pattern
    rw [sign] at negative
    have size : UInt64.size = 2 ^ 64 := rfl
    have inverted : (~~~value.toUInt64).toNat = 2 ^ 64 - 1 - value.toUInt64.toNat := by
      rw [UInt64.toNat_not, size]
    have least : -2 ^ 63 ≤ value.toInt := Int64.le_toInt value
    rw [inverted, Profile.add_of_lt (by omega), Outcome.ok.injEq]
    omega
  · next positive =>
    rw [if_neg positive] at pattern
    rw [pattern]
    rfl

/-- The number of this sign and magnitude. -/
def withSign (neg : Bool) (n : Nat) : Int := if neg then -(n : Int) else n

theorem natAbs_withSign (neg : Bool) (n : Nat) : (withSign neg n).natAbs = n := by
  cases neg
  · rfl
  · exact Int.natAbs_neg n

/-- Where the top bit is set, the sign gets a byte of its own. -/
theorem pushSign_of_le (neg : Bool) (front : Bytes) {last : UInt8} (set : 128 ≤ last.toNat) :
    ∃ bytes, pushSign neg (front ++ [last]) = .ok bytes ∧
      ShortestSigned (withSign neg (leNat (front ++ [last]))) bytes := by
  rw [pushSign, List.getLast?_concat, Outcome.unwrap_some, Outcome.ok_bind,
    if_pos ((and_sign_ne_zero_iff last).mpr set)]
  refine ⟨_, rfl, shortestSigned_of_le ?_ ?_⟩
  · rw [signMagnitude_concat, withSign]
    cases neg
    · rw [if_neg Bool.false_ne_true, if_pos (by decide)]
      simp
    · rw [if_pos rfl, if_neg (by decide)]
      simp
  · have exponent : 8 * ((front ++ [last] ++ [if neg then 0x80 else 0]).length - 1) - 1 = 8 * front.length + 7 := by
      simp only [List.length_append, List.length_singleton]
      omega
    rw [natAbs_withSign, leNat_concat, exponent, pow_add, pow_mul]
    exact le_trans (Nat.mul_le_mul_left (256 ^ front.length) set) (Nat.le_add_left _ _)

/-- Where the top bit is clear, it becomes the sign. -/
theorem pushSign_of_lt (neg : Bool) (front : Bytes) {last : UInt8} (nonzero : last.toNat ≠ 0)
    (clear : last.toNat < 128) : ∃ bytes, pushSign neg (front ++ [last]) = .ok bytes ∧
      ShortestSigned (withSign neg (leNat (front ++ [last]))) bytes := by
  have unset : ¬ last &&& 0x80 ≠ 0 := fun set => absurd ((and_sign_ne_zero_iff last).mp set) (not_le.mpr clear)
  have tight : 2 ^ (8 * front.length - 1) ≤ leNat (front ++ [last]) := by
    calc 2 ^ (8 * front.length - 1) ≤ 2 ^ (8 * front.length) := Nat.pow_le_pow_right (by omega) (by omega)
      _ = 256 ^ front.length * 1 := by rw [pow_mul, mul_one]; norm_num
      _ ≤ 256 ^ front.length * last.toNat := Nat.mul_le_mul_left _ (Nat.pos_of_ne_zero nonzero)
      _ ≤ leNat (front ++ [last]) := by rw [leNat_concat]; exact Nat.le_add_left _ _
  rw [pushSign, List.getLast?_concat, Outcome.unwrap_some, Outcome.ok_bind, if_neg unset, List.dropLast_concat]
  cases neg
  · refine ⟨_, rfl, shortestSigned_of_le ?_ ?_⟩
    · rw [signMagnitude_concat, if_pos clear, leNat_concat]
      rfl
    · rw [natAbs_withSign, List.length_append, List.length_singleton, Nat.add_sub_cancel]
      exact tight
  · refine ⟨_, rfl, shortestSigned_of_le ?_ ?_⟩
    · rw [signMagnitude_concat, toNat_or_sign clear, if_neg (by omega), Nat.add_sub_cancel, leNat_concat]
      rfl
    · rw [natAbs_withSign, List.length_append, List.length_singleton, Nat.add_sub_cancel]
      exact tight

/-- A string whose last byte is not zero becomes the shortest one for the number of either sign. -/
theorem pushSign_spec (neg : Bool) (front : Bytes) {last : UInt8} (nonzero : last.toNat ≠ 0) :
    ∃ bytes, pushSign neg (front ++ [last]) = .ok bytes ∧
      ShortestSigned (withSign neg (leNat (front ++ [last]))) bytes := by
  rcases le_or_gt 128 last.toNat with set | clear
  · exact pushSign_of_le neg front set
  · exact pushSign_of_lt neg front nonzero clear

/-- `serialize_i64` returns the shortest string for its number, in every build. -/
theorem serializeI64_spec (p : Profile) (value : Int64) :
    ∃ bytes, serializeI64 p value = .ok bytes ∧ ShortestSigned value.toInt bytes := by
  by_cases zero : value = 0
  · exact ⟨[], by rw [serializeI64, if_pos zero], by rw [zero]; exact shortestSigned_zero⟩
  have base : 1 < 256 := by omega
  have nonzero : value.toInt ≠ 0 := fun none => zero (Int64.toInt_inj.mp none)
  have low := pow_le_of_pos base (Int.natAbs_pos.mpr nonzero)
  have high : value.toInt.natAbs < 256 ^ digitCount 256 value.toInt.natAbs := lt_pow_digitCount base
  obtain ⟨t, count⟩ : ∃ t, digitCount 256 value.toInt.natAbs = t + 1 := by
    refine Nat.exists_eq_succ_of_ne_zero fun none => ?_
    rw [none, pow_zero] at high
    omega
  rw [count, Nat.add_sub_cancel] at low
  rw [count] at high
  have last : (UInt8.ofNat (value.toInt.natAbs / 256 ^ t % 256)).toNat ≠ 0 := by
    have top : 0 < value.toInt.natAbs / 256 ^ t := Nat.div_pos low (by positivity)
    have small : value.toInt.natAbs / 256 ^ t < 256 :=
      (Nat.div_lt_iff_lt_mul (by positivity)).mpr (by rw [← pow_succ']; exact high)
    rw [UInt8.toNat_ofNat']
    omega
  obtain ⟨bytes, returned, shortest⟩ := pushSign_spec (value < 0) (leBytes t value.toInt.natAbs) last
  rw [← leBytes_succ] at returned shortest
  refine ⟨bytes, ?_, ?_⟩
  · rw [serializeI64, if_neg zero, absvalue_eq, Outcome.ok_bind, pushBytes_eq, count, List.nil_append, returned]
  · have sign : value < 0 ↔ value.toInt < 0 := Int64.lt_iff_toInt_lt
    have whole : value.toInt = withSign (value < 0) value.toInt.natAbs := by
      simp only [withSign, sign, decide_eq_true_eq]
      split <;> omega
    rw [leNat_leBytes, Nat.mod_eq_of_lt high, ← whole] at shortest
    exact shortest

/-! What is built is read back. -/

/-- A size alone is only the start of a push. -/
def AppendableToScript.Push : AppendableToScript → Prop
  | .int64 _ => True
  | .dataSize _ => False
  | .byteArray items => items.length < 2 ^ 32

/-- What an item is read back as: its bytes are the operand, and -1 and 1 to 16 have an opcode each. -/
inductive Carries (p : Profile) : AppendableToScript → ScriptOp → Prop
  | byteArray (opcode : UInt8) (items : Bytes) : Carries p (.byteArray items) (opcode, some items)
  | zero : Carries p (.int64 0) (op0, some [])
  | small {n : Int64} {opcode : UInt8} (range : n = -1 ∨ 1 ≤ n ∧ n ≤ 16)
      (shift : (opcode.toNat : Int) + 1 = n.toInt + op1.toNat) : Carries p (.int64 n) (opcode, none)
  | number (opcode : UInt8) {n : Int64} {serialized : Bytes} (range : ¬ (n = -1 ∨ 1 ≤ n ∧ n ≤ 16)) (nonzero : n ≠ 0)
      (returned : serializeI64 p n = .ok serialized) : Carries p (.int64 n) (opcode, some serialized)

/-- The opcode that announces data of a size. -/
def pushOpcode (size : Nat) : UInt8 :=
  if size < 76 then UInt8.ofNat size
  else if size < 2 ^ 8 then opPushdata1 else if size < 2 ^ 16 then opPushdata2 else opPushdata4

/-- The opcode of a number that has one. -/
def smallOpcode (n : Int64) : UInt8 := (n + (op1 - 1).toUInt64.toInt64).toUInt64.toUInt8

variable {n : Int64} {size : Nat} {data : Bytes} {item : AppendableToScript} {items : List AppendableToScript}

theorem pushOpcode_le (size : Nat) : pushOpcode size ≤ opPushdata4 := by
  unfold pushOpcode
  split
  · next direct =>
    rw [UInt8.le_iff_toNat_le, UInt8.toNat_ofNat_of_lt' (by change size < 256; omega)]
    change size ≤ 78
    omega
  split
  · decide
  split <;> decide

theorem announces_pushOpcode (small : size < 2 ^ 32) : ScriptOp.Announces (pushOpcode size) size := by
  unfold pushOpcode
  split
  · next direct =>
    have value : (UInt8.ofNat size).toNat = size := UInt8.toNat_ofNat_of_lt' (by change size < 256; omega)
    have below : UInt8.ofNat size < opPushdata1 := by
      rw [UInt8.lt_iff_toNat_lt, value]
      exact direct
    rw [ScriptOp.Announces, if_pos below, value]
  split
  · next one => exact one
  split
  · next two => exact two
  · exact small

/-- The four forms of a size are the opcode and the bytes behind it. -/
theorem appendDataSize_eq (small : size < 2 ^ 32) : appendDataSize script (UInt32.ofNat size) =
    script ++ pushOpcode size :: leBytes (ScriptOp.sizeWidth (pushOpcode size)) size := by
  have value : (UInt32.ofNat size).toNat = size := UInt32.toNat_ofNat_of_lt' small
  have direct : UInt32.ofNat size < opPushdata1.toUInt32 ↔ size < 76 := by
    rw [UInt32.lt_iff_toNat_lt, value]
    rfl
  have one : UInt32.ofNat size ≤ 0xFF ↔ size < 2 ^ 8 := by
    rw [UInt32.le_iff_toNat_le, value]
    exact Nat.lt_succ_iff.symm
  have two : UInt32.ofNat size ≤ 0xFFFF ↔ size < 2 ^ 16 := by
    rw [UInt32.le_iff_toNat_le, value]
    exact Nat.lt_succ_iff.symm
  have byte : (UInt32.ofNat size).toUInt8 = UInt8.ofNat size := UInt32.toUInt8_ofNat' size
  unfold appendDataSize pushOpcode
  simp only [direct, one, two, byte, value, UInt32.toNat_toUInt16]
  split
  · next direct =>
    have below : UInt8.ofNat size < opPushdata1 := by
      rw [UInt8.lt_iff_toNat_lt, UInt8.toNat_ofNat_of_lt' (by change size < 256; omega)]
      exact direct
    rw [sizeWidth_of_lt below, leBytes]
  split
  · next one =>
    have low : size % 256 = size := Nat.mod_eq_of_lt one
    change _ = script ++ opPushdata1 :: leBytes 1 size
    rw [leBytes, leBytes, low, List.append_assoc, List.singleton_append]
  split
  · next two =>
    rw [Nat.mod_eq_of_lt two, List.append_assoc]
    rfl
  · rw [List.append_assoc]
    rfl

theorem appendByteArray_eq (small : data.length < 2 ^ 32) :
    appendByteArray script data = script ++ ScriptOp.bytes (pushOpcode data.length, some data) := by
  rw [appendByteArray, appendDataSize_eq small, ScriptOp.bytes, List.append_assoc, List.cons_append]

theorem valid_pushOpcode (small : data.length < 2 ^ 32) : ScriptOp.Valid (pushOpcode data.length, some data) :=
  ⟨pushOpcode_le data.length, announces_pushOpcode small⟩

theorem length_pushSign {neg : Bool} {result bytes : Bytes} (returned : pushSign neg result = .ok bytes) :
    bytes.length ≤ result.length + 1 := by
  obtain ⟨last, _, returned⟩ := Outcome.bind_eq_ok.mp returned
  split at returned
  · cases returned
    rw [List.length_append, List.length_singleton]
  split at returned
  · cases returned
    rw [List.length_append, List.length_dropLast, List.length_singleton]
    omega
  · cases returned
    exact Nat.le_succ _

theorem length_serializeI64 {bytes : Bytes} (returned : serializeI64 p value = .ok bytes) : bytes.length ≤ 9 := by
  unfold serializeI64 at returned
  split at returned
  · cases returned
    exact Nat.zero_le 9
  · rw [absvalue_eq, Outcome.ok_bind, pushBytes_eq, List.nil_append] at returned
    have length := length_pushSign returned
    have count : digitCount 256 value.toInt.natAbs ≤ 8 := by
      have least := Int64.le_toInt value
      have most := Int64.toInt_lt value
      rw [digitCount_le_iff (by omega)]
      omega
    rw [length_leBytes] at length
    omega

theorem toInt_bounds (range : n = -1 ∨ 1 ≤ n ∧ n ≤ 16) : -1 ≤ n.toInt ∧ n.toInt ≤ 16 := by
  rcases range with rfl | ⟨least, most⟩
  · decide
  · have least : 1 ≤ n.toInt := Int64.le_iff_toInt_le.mp least
    have most : n.toInt ≤ 16 := Int64.le_iff_toInt_le.mp most
    omega

/-- The sum does not overflow, and fits in a byte. -/
theorem toNat_smallOpcode (range : n = -1 ∨ 1 ≤ n ∧ n ≤ 16) :
    ((smallOpcode n).toNat : Int) + 1 = n.toInt + op1.toNat := by
  have bounds := toInt_bounds range
  have shift : (op1 - 1).toUInt64.toInt64.toInt = 80 := by decide
  have sum : (n + (op1 - 1).toUInt64.toInt64).toInt = n.toInt + 80 := by
    rw [Int64.toInt_add, shift]
    exact Int.bmod_eq_of_le (by omega) (by omega)
  have pattern := toInt_eq (n + (op1 - 1).toUInt64.toInt64)
  rw [if_neg (by rw [Int64.lt_iff_toInt_lt, sum]; change ¬ _ < (0 : Int); omega), sum] at pattern
  rw [smallOpcode, UInt64.toNat_toUInt8, Nat.mod_eq_of_lt (by omega), ← pattern]
  change n.toInt + 80 + 1 = n.toInt + 81
  omega

theorem valid_smallOpcode (range : n = -1 ∨ 1 ≤ n ∧ n ≤ 16) : ScriptOp.Valid (smallOpcode n, none) := by
  have bounds := toInt_bounds range
  have shift : ((smallOpcode n).toNat : Int) + 1 = n.toInt + 81 := toNat_smallOpcode range
  change 78 < (smallOpcode n).toNat
  omega

theorem smallOpcode_le (range : n = -1 ∨ 1 ≤ n ∧ n ≤ 16) : smallOpcode n ≤ op16 := by
  have bounds := toInt_bounds range
  have shift : ((smallOpcode n).toNat : Int) + 1 = n.toInt + 81 := toNat_smallOpcode range
  change (smallOpcode n).toNat ≤ 96
  omega

/-- Each item that pushes is written as one operation that carries it. -/
theorem appendItem_spec (p : Profile) (push : item.Push) : ∃ op : ScriptOp, op.Valid ∧ op.1 ≤ op16 ∧
    Carries p item op ∧ ∀ script, appendItem p script item = .ok (script ++ op.bytes) := by
  cases item with
  | dataSize size => cases push
  | byteArray items =>
    refine ⟨(pushOpcode items.length, some items), valid_pushOpcode push, ?_, .byteArray _ items, fun script => ?_⟩
    · exact (pushOpcode_le items.length).trans (by decide)
    · rw [appendItem, appendByteArray_eq push]
  | int64 n =>
    by_cases range : n = -1 ∨ 1 ≤ n ∧ n ≤ 16
    · refine ⟨(smallOpcode n, none), valid_smallOpcode range, smallOpcode_le range,
        .small range (toNat_smallOpcode range), fun script => ?_⟩
      rw [appendItem, if_pos range]
      rfl
    by_cases zero : n = 0
    · subst zero
      refine ⟨(op0, some []), ⟨by decide, rfl⟩, by decide, .zero, fun script => ?_⟩
      rw [appendItem, if_neg range, if_pos rfl]
      rfl
    · obtain ⟨bytes, returned, _⟩ := serializeI64_spec p n
      have small : bytes.length < 2 ^ 32 := (length_serializeI64 returned).trans_lt (by norm_num)
      refine ⟨(pushOpcode bytes.length, some bytes), valid_pushOpcode small, ?_, .number _ range zero returned,
        fun script => ?_⟩
      · exact (pushOpcode_le bytes.length).trans (by decide)
      · rw [appendItem, if_neg range, if_neg zero, returned, Outcome.ok_bind, appendByteArray_eq small]
        rfl

theorem appendItems_spec (p : Profile) (pushes : ∀ item ∈ items, item.Push) : ∃ ops : List ScriptOp,
    (∀ op ∈ ops, op.Valid) ∧ (∀ op ∈ ops, op.1 ≤ op16) ∧ List.Forall₂ (Carries p) items ops ∧
      ∀ script, appendItems p items script = .ok (script ++ ops.flatMap ScriptOp.bytes) := by
  induction items with
  | nil =>
    refine ⟨[], List.forall_mem_nil _, List.forall_mem_nil _, .nil, fun script => ?_⟩
    rw [appendItems, List.flatMap_nil, List.append_nil]
  | cons item items ih =>
    rw [List.forall_mem_cons] at pushes
    obtain ⟨op, valid, low, carries, append⟩ := appendItem_spec p pushes.1
    obtain ⟨ops, valids, lows, carry, appends⟩ := ih pushes.2
    refine ⟨op :: ops, List.forall_mem_cons.mpr ⟨valid, valids⟩, List.forall_mem_cons.mpr ⟨low, lows⟩,
      .cons carries carry, fun script => ?_⟩
    rw [appendItems, append, Outcome.ok_bind, appends, List.flatMap_cons, List.append_assoc]

/-- The script is read back as the items, one operation each, and nothing is left of it. -/
def CarriesItems (p : Profile) (items : List AppendableToScript) (script : Bytes) : Prop :=
  ∃ ops, scriptOps script = ops.map some ∧ List.Forall₂ (Carries p) items ops

/-- Pushes are read back from the script that they are appended to, and numbers are written
as short as possible. -/
theorem scriptBuilding (p : Profile) (items : List AppendableToScript) (pushes : ∀ item ∈ items, item.Push) :
    (∃ script, appendItems p items [] = .ok script ∧ CarriesItems p items script ∧ isPushOnly script = true) ∧
      ∀ n : Int64, ∃ bytes, serializeI64 p n = .ok bytes ∧ ShortestSigned n.toInt bytes := by
  obtain ⟨ops, valid, low, carry, appends⟩ := appendItems_spec p pushes
  have read := scriptOps_flatMap valid
  refine ⟨⟨_, appends [], ⟨ops, read, carry⟩, ?_⟩, serializeI64_spec p⟩
  rw [isPushOnly, List.nil_append, read, List.all_map, List.all_eq_true]
  exact fun op member => by simpa using low op member

/-- The items of the witness: numbers with an opcode, numbers without one, and data. -/
def pushItems : List AppendableToScript := [.int64 (-1), .int64 0, .int64 16, .int64 (-255), .byteArray [1, 2, 3]]

theorem scriptBuilding_items :
    (∃ script, appendItems .release pushItems [] = .ok script ∧ CarriesItems .release pushItems script ∧
      isPushOnly script = true) ∧
      ∀ n : Int64, ∃ bytes, serializeI64 .release n = .ok bytes ∧ ShortestSigned n.toInt bytes := by
  refine scriptBuilding .release pushItems ?_
  unfold pushItems
  simp [AppendableToScript.Push]

end Bitlens

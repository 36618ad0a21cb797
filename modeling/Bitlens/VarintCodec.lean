import Bitlens.RoundTrip
import Bitlens.StoredRecords

namespace Bitlens
open Lib

/-! The two writers, with the number of bytes that they return. -/

/-- `serialize_varint` at the end of a `Vec`. -/
def Varint.serializeVarint (v : UInt64) (into : Bytes) : Bytes × Nat :=
  if v < 0xFD then (into ++ [v.toUInt8], 1)
  else if v < 0xFFFF then (into ++ [0xFD] ++ leBytes 2 v.toUInt16.toNat, 3)
  else if v < 0xFFFFFFFF then (into ++ [0xFE] ++ leBytes 4 v.toUInt32.toNat, 5)
  else (into ++ [0xFF] ++ leBytes 8 v.toNat, 9)

/-- `serialize_varint_into_slice`: the slice after it. -/
def Varint.serializeVarintIntoSlice (v : UInt64) (into : Bytes) : Outcome (Bytes × Nat) :=
  if v < 0xFD then do
    let into ← writeAt into 0 [v.toUInt8]
    pure (into, 1)
  else if v < 0xFFFF then do
    let into ← writeAt into 0 [0xFD]
    let into ← writeAt into 1 (leBytes 2 v.toUInt16.toNat)
    pure (into, 3)
  else if v < 0xFFFFFFFF then do
    let into ← writeAt into 0 [0xFE]
    let into ← writeAt into 1 (leBytes 4 v.toUInt32.toNat)
    pure (into, 5)
  else do
    let into ← writeAt into 0 [0xFF]
    let into ← writeAt into 1 (leBytes 8 v.toNat)
    pure (into, 9)

/-- What the functions promise for a value. -/
structure VarintCodec (v : UInt64) : Prop where
  vec : ∀ into, Varint.serializeVarint v into = (into ++ serializeVarint v, lengthVarint v)
  slice : ∀ into, lengthVarint v ≤ into.length → Varint.serializeVarintIntoSlice v into =
    .ok (serializeVarint v ++ into.drop (lengthVarint v), lengthVarint v)
  length : (serializeVarint v).length = lengthVarint v
  decodes : Decodes deserializeVarint (serializeVarint v) v
  width : lengthVarint v = if v.toNat < 0xFD then 1 else if v.toNat ≤ 0xFFFF then 3
    else if v.toNat ≤ 0xFFFFFFFF then 5 else 9
  shortest : ShortestForm v.toNat (serializeVarint v)
  reserializes : ∀ bytes, ShortestForm v.toNat bytes →
    ∃ count, Decodes deserializeVarint bytes count ∧ serializeVarint count = bytes

variable {v : UInt64}

theorem leBytes_one (n : Nat) : leBytes 1 n = [UInt8.ofNat n] := by
  rw [leBytes, leBytes, UInt8.ofNat_mod_size]

theorem toNat_toUInt16 (small : v < 0xFFFF) : v.toUInt16.toNat = v.toNat := by
  have small' : v.toNat < 65535 := UInt64.lt_iff_toNat_lt.mp small
  rw [UInt64.toNat_toUInt16]
  omega

theorem toNat_toUInt32 (small : v < 0xFFFFFFFF) : v.toUInt32.toNat = v.toNat := by
  have small' : v.toNat < 4294967295 := UInt64.lt_iff_toNat_lt.mp small
  rw [UInt64.toNat_toUInt32]
  omega

theorem Varint.serializeVarint_eq (v : UInt64) (into : Bytes) :
    Varint.serializeVarint v into = (into ++ Bitlens.serializeVarint v, lengthVarint v) := by
  unfold Varint.serializeVarint Bitlens.serializeVarint lengthVarint
  split
  · rw [leBytes_one]
    rfl
  split
  · next small => rw [toNat_toUInt16 small, List.append_assoc, List.singleton_append]
  split
  · next small => rw [toNat_toUInt32 small, List.append_assoc, List.singleton_append]
  · rw [List.append_assoc, List.singleton_append]

/-- The slice is written as if it was done at once. -/
theorem Varint.serializeVarintIntoSlice_eq (v : UInt64) (into : Bytes) :
    Varint.serializeVarintIntoSlice v into = (do
      let into ← writeAt into 0 (Bitlens.serializeVarint v)
      pure (into, lengthVarint v)) := by
  unfold Varint.serializeVarintIntoSlice Bitlens.serializeVarint lengthVarint
  split
  · rw [leBytes_one]
    rfl
  split
  · next small =>
    rw [toNat_toUInt16 small, ← writeAt_cons into 0xFD (leBytes 2 v.toNat)]
    cases writeAt into 0 [0xFD] <;> rfl
  split
  · next small =>
    rw [toNat_toUInt32 small, ← writeAt_cons into 0xFE (leBytes 4 v.toNat)]
    cases writeAt into 0 [0xFE] <;> rfl
  · rw [← writeAt_cons into 0xFF (leBytes 8 v.toNat)]
    cases writeAt into 0 [0xFF] <;> rfl

/-- A slice that is long enough gets the bytes at its front; a shorter one is a panic. -/
theorem Varint.serializeVarintIntoSlice_of_length (v : UInt64) (into : Bytes) :
    Varint.serializeVarintIntoSlice v into =
      if lengthVarint v ≤ into.length then
        .ok (Bitlens.serializeVarint v ++ into.drop (lengthVarint v), lengthVarint v)
      else .fault := by
  rw [Varint.serializeVarintIntoSlice_eq, writeAt, length_serializeVarint, Nat.zero_add]
  split <;> rfl

/-- Writing into a part of a buffer is writing into the slice that starts there. -/
theorem serializeVarintIntoSlice_eq {position : Nat} {buffer : Bytes} (inside : position ≤ buffer.length) :
    serializeVarintIntoSlice v buffer position = (do
      let (slice, n) ← Varint.serializeVarintIntoSlice v (buffer.drop position)
      pure (buffer.take position ++ slice, n)) := by
  have room : lengthVarint v ≤ (buffer.drop position).length ↔ position + lengthVarint v ≤ buffer.length := by
    rw [List.length_drop]
    omega
  rw [Varint.serializeVarintIntoSlice_of_length, serializeVarintIntoSlice, writeAt, length_serializeVarint]
  simp only [room]
  split
  · rw [Outcome.ok_bind, Outcome.ok_bind, List.append_assoc, List.drop_drop]
  · rfl

/-- The two largest values of the shorter forms are written in the next longer one. -/
theorem serializeVarint_eq_compactSize_iff : serializeVarint v = compactSize v.toNat ↔ v ≠ 0xFFFF ∧ v ≠ 0xFFFFFFFF := by
  constructor
  · intro same
    refine ⟨?_, ?_⟩
    · rintro rfl
      exact absurd same (by decide)
    · rintro rfl
      exact absurd same (by decide)
  · rintro ⟨notTwo, notFour⟩
    rw [← UInt64.toNat_inj.ne] at notTwo notFour
    have one : v < 0xFD ↔ v.toNat < 0xFD := UInt64.lt_iff_toNat_lt
    have two : v < 0xFFFF ↔ v.toNat ≤ 0xFFFF :=
      UInt64.lt_iff_toNat_lt.trans ⟨le_of_lt, fun below => lt_of_le_of_ne below notTwo⟩
    have four : v < 0xFFFFFFFF ↔ v.toNat ≤ 0xFFFFFFFF :=
      UInt64.lt_iff_toNat_lt.trans ⟨le_of_lt, fun below => lt_of_le_of_ne below notFour⟩
    simp only [serializeVarint, compactSize, one, two, four]

/-- The functions agree and decode what they encode for every value; the encoding is the shortest
one, and re-encoding gives back what was decoded, for all values but two. -/
theorem varintCodec_iff (v : UInt64) : VarintCodec v ↔ v ≠ 0xFFFF ∧ v ≠ 0xFFFFFFFF := by
  rw [← serializeVarint_eq_compactSize_iff]
  constructor
  · exact fun codec => (shortestForm_iff v.toNat_lt).mp codec.shortest
  · intro same
    refine ⟨Varint.serializeVarint_eq v, fun into room => ?_, length_serializeVarint v, decodes_varint v, ?_,
      (shortestForm_iff v.toNat_lt).mpr same, fun bytes shortest => ⟨v, ?_⟩⟩
    · rw [Varint.serializeVarintIntoSlice_of_length, if_pos room]
    · rw [← length_serializeVarint, same, length_compactSize]
    · rw [(shortestForm_iff v.toNat_lt).mp shortest, ← same]
      exact ⟨decodes_varint v, rfl⟩

/-- The shortest form of 65535 takes three bytes, and the encoding five. -/
theorem varintCodec_fails : ¬ VarintCodec 0xFFFF :=
  fun codec => absurd codec.width (by decide)

end Bitlens

import Mathlib.Data.List.Lex
import Mathlib.Order.Basic
import Mathlib.Tactic.Ring

namespace Bitlens.Lib

instance instLinearOrderUInt8 : LinearOrder UInt8 where
  le_refl a := UInt8.le_refl a
  le_trans _ _ _ := UInt8.le_trans
  le_antisymm _ _ := UInt8.le_antisymm
  le_total := UInt8.le_total
  lt_iff_le_not_ge a b := by simp only [UInt8.lt_iff_toNat_lt, UInt8.le_iff_toNat_le]; omega
  toDecidableLE := inferInstance
  toDecidableEq := inferInstance
  toDecidableLT := inferInstance

abbrev Bytes := List UInt8

/-- A Rust array `[u8; n]`. Subtypes of lists inherit the bytewise order, which is
the order of slices and of keys compared byte by byte. -/
abbrev ByteArr (n : Nat) := {bytes : Bytes // bytes.length = n}

def ByteArr.fill (n : Nat) (byte : UInt8) : ByteArr n :=
  ⟨List.replicate n byte, List.length_replicate⟩

/-- `to_le_bytes` of an integer of the given width in bytes. -/
def leBytes : Nat → Nat → Bytes
  | 0, _ => []
  | width + 1, value => UInt8.ofNat (value % 256) :: leBytes width (value / 256)

@[simp] theorem length_leBytes (width value : Nat) : (leBytes width value).length = width := by
  induction width generalizing value with
  | zero => rfl
  | succ width ih => rw [leBytes, List.length_cons, ih]

/-- `from_le_bytes` and `from_be_bytes`, before the result is cut to its width. -/
def leNat : Bytes → Nat
  | [] => 0
  | byte :: rest => byte.toNat + 256 * leNat rest

theorem leNat_leBytes (width value : Nat) : leNat (leBytes width value) = value % 256 ^ width := by
  induction width generalizing value with
  | zero => rw [leBytes, leNat, pow_zero, Nat.mod_one]
  | succ width ih =>
    have byte : (UInt8.ofNat (value % 256)).toNat = value % 256 := by
      rw [UInt8.toNat_ofNat']
      omega
    rw [leBytes, leNat, ih, byte, pow_succ', Nat.mod_mul]

theorem leNat_lt (bytes : Bytes) : leNat bytes < 256 ^ bytes.length := by
  induction bytes with
  | nil => exact Nat.one_pos
  | cons byte rest ih =>
    have small := byte.toNat_lt
    rw [leNat, List.length_cons, pow_succ']
    omega

theorem leBytes_leNat (bytes : Bytes) : leBytes bytes.length (leNat bytes) = bytes := by
  induction bytes with
  | nil => rfl
  | cons byte rest ih =>
    have small := byte.toNat_lt
    have low : (byte.toNat + 256 * leNat rest) % 256 = byte.toNat := by omega
    have high : (byte.toNat + 256 * leNat rest) / 256 = leNat rest := by omega
    rw [List.length_cons, leBytes, leNat, low, high, ih, UInt8.ofNat_toNat]

def beNat (bytes : Bytes) : Nat :=
  leNat bytes.reverse

/-- `to_be_bytes`, and `put_u16` and its like: the high byte comes first. -/
def beBytes (width value : Nat) : Bytes :=
  (leBytes width value).reverse

@[simp] theorem length_beBytes (width value : Nat) : (beBytes width value).length = width := by
  rw [beBytes, List.length_reverse, length_leBytes]

/-- `slice::get` of a range. -/
def getRange (bytes : Bytes) (start stop : Nat) : Option Bytes :=
  if start ≤ stop ∧ stop ≤ bytes.length then some ((bytes.take stop).drop start) else none

/-- `try_into` of a slice to an array. -/
def ByteArr.ofBytes (n : Nat) (bytes : Bytes) : Option (ByteArr n) :=
  if length : bytes.length = n then some ⟨bytes, length⟩ else none

/-- No string of bytes is below the zero bytes of its length. -/
theorem not_lt_replicate_zero (bytes : Bytes) : ¬ bytes < List.replicate bytes.length 0 := by
  induction bytes with
  | nil => exact lt_irrefl _
  | cons byte rest ih =>
    intro below
    rw [List.length_cons, List.replicate_succ] at below
    cases below with
    | cons later => exact ih later
    | rel smaller =>
      have smaller' := UInt8.lt_iff_toNat_lt.mp smaller
      exact absurd smaller' (Nat.not_lt_zero _)

/-- No string of bytes is above the largest bytes of its length. -/
theorem not_replicate_max_lt (bytes : Bytes) : ¬ List.replicate bytes.length 255 < bytes := by
  induction bytes with
  | nil => exact lt_irrefl _
  | cons byte rest ih =>
    intro above
    rw [List.length_cons, List.replicate_succ] at above
    cases above with
    | cons later => exact ih later
    | rel greater =>
      have greater' := UInt8.lt_iff_toNat_lt.mp greater
      have small : byte.toNat < 256 := byte.toNat_lt
      have top : (255 : UInt8).toNat = 255 := rfl
      omega

theorem ByteArr.fill_zero_le {n : Nat} (bytes : ByteArr n) : ByteArr.fill n 0 ≤ bytes := by
  have least := not_lt_replicate_zero bytes.1
  rw [bytes.2] at least
  exact not_lt.mp least

theorem getRange_eq_some {bytes result : Bytes} {start stop : Nat} :
    getRange bytes start stop = some result ↔
      start ≤ stop ∧ stop ≤ bytes.length ∧ (bytes.take stop).drop start = result := by
  rw [getRange, Option.ite_none_right_eq_some, Option.some.injEq, and_assoc]

theorem length_of_getRange {bytes result : Bytes} {start stop : Nat} (found : getRange bytes start stop = some result) :
    result.length = stop - start := by
  obtain ⟨_, inBounds, rfl⟩ := getRange_eq_some.mp found
  rw [List.length_drop, List.length_take, Nat.min_eq_left inBounds]

end Bitlens.Lib

import Bitlens.Lib.Bytes

namespace Bitlens
open Lib

def lengthVarint (v : UInt64) : Nat :=
  if v < 0xFD then 1
  else if v < 0xFFFF then 3
  else if v < 0xFFFFFFFF then 5
  else 9

/-- `serialize_varint` and `serialize_varint_into_slice`. -/
def serializeVarint (v : UInt64) : Bytes :=
  if v < 0xFD then leBytes 1 v.toNat
  else if v < 0xFFFF then 0xFD :: leBytes 2 v.toNat
  else if v < 0xFFFFFFFF then 0xFE :: leBytes 4 v.toNat
  else 0xFF :: leBytes 8 v.toNat

theorem length_serializeVarint (v : UInt64) : (serializeVarint v).length = lengthVarint v := by
  unfold serializeVarint lengthVarint
  split
  · exact length_leBytes 1 _
  split
  · rw [List.length_cons, length_leBytes]
  split
  · rw [List.length_cons, length_leBytes]
  · rw [List.length_cons, length_leBytes]

theorem length_serializeVarint_pos (v : UInt64) : 1 ≤ (serializeVarint v).length := by
  rw [length_serializeVarint, lengthVarint]
  split
  · exact Nat.le_refl 1
  split
  · decide
  split
  · decide
  · decide

end Bitlens

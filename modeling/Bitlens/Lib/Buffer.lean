import Bitlens.Lib.Bytes
import Bitlens.Lib.Outcome

namespace Bitlens.Lib

/-- `copy_from_slice` into a buffer at a position. A part that is not inside the buffer is a panic. -/
def writeAt (buffer : Bytes) (position : Nat) (data : Bytes) : Outcome Bytes :=
  if position + data.length ≤ buffer.length then
    .ok (buffer.take position ++ data ++ buffer.drop (position + data.length))
  else .fault

/-- Writing a byte and the data behind it. -/
theorem writeAt_cons (buffer : Bytes) (byte : UInt8) (data : Bytes) :
    (do
      let buffer ← writeAt buffer 0 [byte]
      writeAt buffer 1 data) = writeAt buffer 0 (byte :: data) := by
  cases buffer with
  | nil => rfl
  | cons first buffer =>
    have written : writeAt (first :: buffer) 0 [byte] = .ok (byte :: buffer) := if_pos (by simp)
    rw [written, Outcome.ok_bind, writeAt, writeAt, Nat.add_comm 1, Nat.zero_add, List.length_cons, List.length_cons,
      List.length_cons]
    rfl

/-- A buffer of zeros that was written from its front. -/
structure Filled (buffer front : Bytes) (room : Nat) : Prop where
  shape : buffer = front ++ List.replicate room 0

variable {buffer front : Bytes} {room : Nat}

theorem filled_replicate (room : Nat) : Filled (List.replicate room 0) [] room :=
  ⟨rfl⟩

/-- The next data behind the front: it is written without a panic if there is room. -/
theorem Filled.writeAt (filled : Filled buffer front room) {position : Nat} (start : front.length = position) (data : Bytes)
    (fits : data.length ≤ room) : ∃ next, writeAt buffer position data = .ok next ∧ Filled next (front ++ data) (room - data.length) := by
  obtain ⟨rfl⟩ := filled
  subst start
  refine ⟨_, if_pos (by rw [List.length_append, List.length_replicate]; omega), ?_⟩
  have behind : (front ++ List.replicate room 0).drop (front.length + data.length) =
      List.replicate (room - data.length) (0 : UInt8) := by
    rw [← List.drop_drop, List.drop_left, List.drop_replicate]
  exact ⟨by rw [List.take_left, behind]⟩

theorem Filled.of_eq {rest : Nat} (filled : Filled buffer front room) (same : room = rest) : Filled buffer front rest :=
  same ▸ filled

theorem Filled.full (filled : Filled buffer front 0) : buffer = front := by
  rw [filled.shape, List.replicate_zero, List.append_nil]

end Bitlens.Lib

import Mathlib.Data.List.Rotate
import Mathlib.Data.Nat.ModEq

namespace Bitlens.Lib

variable {α : Type} {buffer : List α} {start n k : Nat}

/-- An index that has moved forward by at most one round. -/
theorem wrapped {size : Nat} (inside : start < size) (moved : k ≤ size) :
    (start + k) % size = if start + k < size then start + k else start + k - size := by
  split
  · next fits => exact Nat.mod_eq_of_lt fits
  · next beyond => rw [Nat.mod_eq_sub_mod (by omega), Nat.mod_eq_of_lt (by omega)]

/-- The `n` cells of a ring buffer from `start` on, across its end. -/
def ring (buffer : List α) (start n : Nat) : List α :=
  (buffer.rotate start).take n

@[simp] theorem ring_zero : ring buffer start 0 = [] := by
  simp [ring]

@[simp] theorem ring_mod : ring buffer (start % buffer.length) n = ring buffer start n := by
  simp [ring, List.rotate_mod]

theorem ring_length : ring buffer start buffer.length = buffer.rotate start := by
  simp [ring, List.take_of_length_le]

theorem length_ring (fits : n ≤ buffer.length) : (ring buffer start n).length = n := by
  simp [ring, fits]

theorem getElem?_ring (within : k < n) (fits : n ≤ buffer.length) :
    (ring buffer start n)[k]? = buffer[(k + start) % buffer.length]? := by
  rw [ring, List.getElem?_take, if_pos within, List.getElem?_rotate (by omega)]

/-- The window and the cells behind it are the whole buffer. -/
theorem ring_append (buffer : List α) (start n : Nat) :
    ring buffer start n ++ (buffer.rotate start).drop n = buffer.rotate start :=
  List.take_append_drop n _

/-- Moving the start forward drops the oldest cells. -/
theorem ring_drop (fits : n ≤ buffer.length) (moved : k ≤ n) :
    ring buffer (start + k) (n - k) = (ring buffer start n).drop k := by
  have inside : k ≤ (buffer.rotate start).length := by
    rw [List.length_rotate]
    omega
  have turned : buffer.rotate (start + k) = (buffer.rotate start).drop k ++ (buffer.rotate start).take k := by
    rw [← List.rotate_rotate, List.rotate_eq_drop_append_take inside]
  rw [ring, ring, turned, List.drop_take, List.take_append_of_le_length]
  rw [List.length_drop, List.length_rotate]
  omega

theorem ring_succ (start : Nat) (fits : n < buffer.length) :
    ∃ x, buffer[start % buffer.length]? = some x ∧ ring buffer start (n + 1) = x :: ring buffer (start + 1) n := by
  have inside : start % buffer.length < buffer.length := Nat.mod_lt _ (by omega)
  have first : (ring buffer start (n + 1))[0]? = buffer[start % buffer.length]? := by
    rw [getElem?_ring (Nat.succ_pos n) fits, Nat.zero_add]
  have rest : ring buffer (start + 1) (n + 1 - 1) = _ := ring_drop fits (Nat.le_add_left 1 n)
  rw [List.getElem?_eq_getElem inside] at first ⊢
  cases window : ring buffer start (n + 1) with
  | nil => simp [window] at first
  | cons x xs =>
    simp only [window, List.getElem?_cons_zero, Option.some.injEq] at first
    simp only [window, List.drop_succ_cons, List.drop_zero, Nat.add_sub_cancel] at rest
    exact ⟨x, by rw [first], by rw [rest]⟩

/-- Moving the start past the end leaves all cells from there on, round to the end. -/
theorem ring_beyond (past : n ≤ k) (fits : k ≤ buffer.length) :
    ring buffer (start + k) (n + (buffer.length - k)) = (buffer.rotate start).drop k ++ ring buffer start n := by
  have inside : k ≤ (buffer.rotate start).length := by rwa [List.length_rotate]
  have length : ((buffer.rotate start).drop k).length = buffer.length - k := by simp
  rw [ring, ← List.rotate_rotate, List.rotate_eq_drop_append_take inside, Nat.add_comm n, ← length, List.take_append,
    List.take_of_length_le (Nat.le_add_right _ _), Nat.add_sub_cancel_left, List.take_take, Nat.min_eq_left past]
  rfl

/-- Writing the cell behind the window and moving its end forward appends. -/
theorem ring_set (start : Nat) (room : n < buffer.length) (x : α) :
    ring (buffer.set ((start + n) % buffer.length) x) start (n + 1) = ring buffer start n ++ [x] := by
  have length : (ring buffer start n).length = n := length_ring room.le
  refine List.ext_getElem? fun i => ?_
  rcases Nat.lt_trichotomy i n with before | at_end | beyond
  · have apart : (start + n) % buffer.length ≠ (i + start) % buffer.length := by
      intro same
      rw [Nat.add_comm i start] at same
      have equal := Nat.ModEq.eq_of_lt_of_lt (Nat.ModEq.add_left_cancel' start same) room (before.trans room)
      omega
    rw [List.getElem?_append_left (by omega), getElem?_ring before room.le,
      getElem?_ring (by omega) (by rw [List.length_set]; omega), List.length_set, List.getElem?_set_ne apart]
  · rw [List.getElem?_append_right (by omega), getElem?_ring (by omega) (by rw [List.length_set]; omega),
      List.length_set, at_end, length, Nat.sub_self, Nat.add_comm n start, List.getElem?_set_self]
    · rfl
    · exact Nat.mod_lt _ (by omega)
  · rw [List.getElem?_eq_none, List.getElem?_eq_none]
    · simp [length]
      omega
    · simp [ring]
      omega

/-- A buffer that is unrolled from `start` and made longer shows the same cells. -/
theorem ring_unrolled (fits : n ≤ buffer.length) (tail : List α) :
    ring (buffer.rotate start ++ tail) 0 n = ring buffer start n := by
  rw [ring, ring, List.rotate_zero, List.take_append_of_le_length]
  simpa using fits

end Bitlens.Lib

import Bitlens.Lib.Outcome

namespace Bitlens.Lib

/-- An array of a fixed capacity, which never holds more than fits. -/
structure ArenaArray (α : Type) where
  items : List α
  cap : Nat
  fits : items.length ≤ cap

namespace ArenaArray

variable {α : Type} {array next : ArenaArray α} {item : α} {front xs : List α}

def ofCapacity (cap : Nat) : ArenaArray α :=
  ⟨[], cap, Nat.zero_le cap⟩

/-- Panics if there is no space left. -/
def push (array : ArenaArray α) (item : α) : Outcome (ArenaArray α) :=
  if room : array.items.length < array.cap then
    .ok ⟨array.items ++ [item], array.cap, by rw [List.length_append, List.length_singleton]; exact room⟩
  else .fault

/-- Panics if there is no item. -/
def pop (array : ArenaArray α) : Outcome (α × ArenaArray α) :=
  match array.items.getLast? with
  | none => .fault
  | some item => .ok (item, ⟨array.items.dropLast, array.cap, by
      have fits := array.fits
      rw [List.length_dropLast]
      omega⟩)

/-- The array is the other one with these items behind its own. -/
structure Extends (array : ArenaArray α) (xs : List α) (next : ArenaArray α) : Prop where
  items : next.items = array.items ++ xs
  cap : next.cap = array.cap

theorem Extends.nil : array.Extends [] array :=
  ⟨(List.append_nil _).symm, rfl⟩

theorem Extends.trans {last : ArenaArray α} {ys : List α} (first : array.Extends xs next) (second : next.Extends ys last) :
    array.Extends (xs ++ ys) last :=
  ⟨by rw [second.items, first.items, List.append_assoc], second.cap.trans first.cap⟩

theorem Extends.length (extends_ : array.Extends xs next) : next.items.length = array.items.length + xs.length := by
  rw [extends_.items, List.length_append]

theorem push_ok (room : array.items.length < array.cap) : ∃ next, array.push item = .ok next ∧ array.Extends [item] next :=
  ⟨_, dif_pos room, rfl, rfl⟩

theorem pop_ok (shape : array.items = front ++ [item]) :
    ∃ next, array.pop = .ok (item, next) ∧ next.items = front ∧ next.cap = array.cap := by
  have last : array.items.getLast? = some item := by rw [shape, List.getLast?_append, List.getLast?_singleton]; rfl
  rw [pop, last]
  refine ⟨_, rfl, ?_, rfl⟩
  dsimp only
  rw [shape, List.dropLast_concat]

end ArenaArray

end Bitlens.Lib

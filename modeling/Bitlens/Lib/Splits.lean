import Mathlib.Data.List.Flatten
import Mathlib.Logic.Basic

namespace Bitlens.Lib

variable {α β : Type} {encode : α → List β} {Valid : α → Prop}

/-- Valid items are told apart at the front of any string. -/
def PrefixFree (encode : α → List β) (Valid : α → Prop) : Prop :=
  ∀ x y s t, Valid x → Valid y → encode x ++ s = encode y ++ t → x = y ∧ s = t

/-- A string is cut into valid items and a tail that starts with none. -/
structure Splits (encode : α → List β) (Valid : α → Prop) (s : List β) (xs : List α) (tail : List β) : Prop where
  valid : ∀ x ∈ xs, Valid x
  whole : s = xs.flatMap encode ++ tail
  stuck : ∀ x, Valid x → ∀ rest, tail ≠ encode x ++ rest

namespace Splits

variable {s rest tail tail' : List β} {x : α} {xs ys : List α}

theorem nil (stuck : ∀ x, Valid x → ∀ rest, s ≠ encode x ++ rest) : Splits encode Valid s [] s :=
  ⟨fun _ absent => (List.not_mem_nil absent).elim, rfl, stuck⟩

theorem cons (valid : Valid x) (split : s = encode x ++ rest) (splits : Splits encode Valid rest xs tail) :
    Splits encode Valid s (x :: xs) tail where
  valid := List.forall_mem_cons.mpr ⟨valid, splits.valid⟩
  whole := by rw [split, splits.whole, List.flatMap_cons, List.append_assoc]
  stuck := splits.stuck

/-- There is only one way to cut a string. -/
theorem unique (free : PrefixFree encode Valid) (splits : Splits encode Valid s xs tail)
    (splits' : Splits encode Valid s ys tail') : xs = ys ∧ tail = tail' := by
  induction xs generalizing s ys with
  | nil =>
    cases ys with
    | nil => exact ⟨rfl, splits.whole.symm.trans splits'.whole⟩
    | cons y ys =>
      have whole := splits.whole.symm.trans splits'.whole
      rw [List.flatMap_cons, List.append_assoc] at whole
      exact absurd whole (splits.stuck y (splits'.valid y List.mem_cons_self) _)
  | cons x xs ih =>
    have whole := splits.whole
    rw [List.flatMap_cons, List.append_assoc] at whole
    cases ys with
    | nil => exact absurd (splits'.whole.symm.trans whole) (splits'.stuck x (splits.valid x List.mem_cons_self) _)
    | cons y ys =>
      have whole' := splits'.whole
      rw [List.flatMap_cons, List.append_assoc] at whole'
      obtain ⟨rfl, same⟩ := free x y _ _ (splits.valid x List.mem_cons_self) (splits'.valid y List.mem_cons_self)
        (whole.symm.trans whole')
      have first : Splits encode Valid (xs.flatMap encode ++ tail) xs tail :=
        ⟨fun z member => splits.valid z (List.mem_cons_of_mem _ member), rfl, splits.stuck⟩
      have second : Splits encode Valid (xs.flatMap encode ++ tail) ys tail' :=
        ⟨fun z member => splits'.valid z (List.mem_cons_of_mem _ member), same, splits'.stuck⟩
      obtain ⟨rfl, rfl⟩ := ih first second
      exact ⟨rfl, rfl⟩

end Splits

end Bitlens.Lib

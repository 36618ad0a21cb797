import Mathlib.Algebra.GroupWithZero.Nat
import Mathlib.Algebra.BigOperators.Group.List.Basic
import Mathlib.Data.List.Nodup

namespace Bitlens.Lib

variable {α β : Type} {xs : List α} {i : Nat} {x y z : α}

/-- A list around one of its slots, whatever is put there. -/
theorem exists_slot (atI : xs[i]? = some x) :
    ∃ front back, xs = front ++ x :: back ∧ ∀ y, xs.set i y = front ++ y :: back := by
  obtain ⟨inside, value⟩ := List.getElem?_eq_some_iff.mp atI
  refine ⟨xs.take i, xs.drop (i + 1), ?_, fun y => ?_⟩
  · rw [← value, List.getElem_cons_drop, List.take_append_drop]
  · rw [List.set_eq_take_append_cons_drop, if_pos inside]

theorem map_set_slot (f : α → β) (atI : xs[i]? = some x) (same : f y = f x) : (xs.set i y).map f = xs.map f := by
  obtain ⟨front, back, whole, replaced⟩ := exists_slot atI
  rw [replaced, whole, List.map_append, List.map_append, List.map_cons, List.map_cons, same]

/-- When the slots have names, the others are those with another name. -/
theorem mem_set_slot (f : α → β) (distinct : (xs.map f).Nodup) (atI : xs[i]? = some x) :
    z ∈ xs.set i y ↔ z = y ∨ z ∈ xs ∧ f z ≠ f x := by
  obtain ⟨front, back, whole, replaced⟩ := exists_slot atI
  rw [whole, List.map_append, List.map_cons, List.nodup_middle, List.nodup_cons, List.mem_append] at distinct
  have apart : ∀ z, z ∈ front ∨ z ∈ back → f z ≠ f x := by
    intro z member same
    refine distinct.1 (same ▸ ?_)
    exact member.imp List.mem_map_of_mem List.mem_map_of_mem
  rw [replaced, whole]
  simp only [List.mem_append, List.mem_cons]
  constructor
  · rintro (inFront | rfl | inBack)
    · exact Or.inr ⟨Or.inl inFront, apart z (Or.inl inFront)⟩
    · exact Or.inl rfl
    · exact Or.inr ⟨Or.inr (Or.inr inBack), apart z (Or.inr inBack)⟩
  · rintro (rfl | ⟨inFront | rfl | inBack, other⟩)
    · exact Or.inr (Or.inl rfl)
    · exact Or.inl inFront
    · exact absurd rfl other
    · exact Or.inr (Or.inr inBack)

/-- What the items of a list hold, when one of them is replaced. -/
theorem count_flatMap_set [BEq β] (f : α → List β) (atI : xs[i]? = some x) (b : β) :
    ((xs.set i y).flatMap f).count b + (f x).count b = (xs.flatMap f).count b + (f y).count b := by
  obtain ⟨front, back, whole, replaced⟩ := exists_slot atI
  rw [replaced, whole]
  simp only [List.flatMap_append, List.flatMap_cons, List.count_append]
  omega

theorem sum_map_set (f : α → Nat) (atI : xs[i]? = some x) :
    ((xs.set i y).map f).sum + f x = (xs.map f).sum + f y := by
  obtain ⟨front, back, whole, replaced⟩ := exists_slot atI
  rw [replaced, whole]
  simp only [List.map_append, List.map_cons, List.sum_append, List.sum_cons]
  omega

end Bitlens.Lib

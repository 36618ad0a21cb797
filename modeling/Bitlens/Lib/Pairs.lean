import Mathlib.Data.List.Forall2
import Mathlib.Data.List.Nodup
import Mathlib.Data.List.Pairwise

namespace Bitlens.Lib

variable {α β : Type} {R : α → β → Prop} {xs : List α} {ys : List β}

/-- Each element of one list has its partner in the other. -/
theorem exists_right (pairs : List.Forall₂ R xs ys) {x : α} (member : x ∈ xs) : ∃ y ∈ ys, R x y := by
  induction pairs with
  | nil => cases member
  | cons first _ ih =>
    rcases List.mem_cons.mp member with rfl | later
    · exact ⟨_, List.mem_cons_self, first⟩
    · obtain ⟨y, inYs, related⟩ := ih later
      exact ⟨y, List.mem_cons_of_mem _ inYs, related⟩

theorem exists_left (pairs : List.Forall₂ R xs ys) {y : β} (member : y ∈ ys) : ∃ x ∈ xs, R x y := by
  obtain ⟨x, inXs, related⟩ := exists_right pairs.flip member
  exact ⟨x, inXs, related⟩

/-- What is equivalent for partners holds of one list when it holds of the other. -/
theorem forall_mem_iff_of_pairs {P : α → Prop} {Q : β → Prop} (pairs : List.Forall₂ R xs ys)
    (same : ∀ x y, R x y → (P x ↔ Q y)) : (∀ x ∈ xs, P x) ↔ ∀ y ∈ ys, Q y := by
  constructor
  · intro all y member
    obtain ⟨x, inXs, related⟩ := exists_left pairs member
    exact (same x y related).mp (all x inXs)
  · intro all x member
    obtain ⟨y, inYs, related⟩ := exists_right pairs member
    exact (same x y related).mpr (all y inYs)

theorem flatMap_eq_of_pairs {γ : Type} {f : α → List γ} {g : β → List γ}
    (pairs : List.Forall₂ (fun x y => f x = g y) xs ys) : xs.flatMap f = ys.flatMap g := by
  induction pairs with
  | nil => rfl
  | cons first _ ih => rw [List.flatMap_cons, List.flatMap_cons, first, ih]

/-- In a list of lists without a repetition, an element tells the list it is in. -/
theorem eq_of_mem_flatMap {γ : Type} {f : α → List γ} {x y : α} {z : γ} (nodup : (xs.flatMap f).Nodup) (inXs : x ∈ xs)
    (inYs : y ∈ xs) (first : z ∈ f x) (second : z ∈ f y) : x = y := by
  by_contra apart
  have symmetric : Std.Symm (Function.onFun List.Disjoint f) := ⟨fun _ _ separate _ second first => separate first second⟩
  exact (List.nodup_flatMap.mp nodup).2.forall inXs inYs apart first second

theorem forall₂_of_forall_exists (total : ∀ x ∈ xs, ∃ y, R x y) : ∃ ys, List.Forall₂ R xs ys := by
  induction xs with
  | nil => exact ⟨[], .nil⟩
  | cons x xs ih =>
    obtain ⟨y, related⟩ := total x List.mem_cons_self
    obtain ⟨ys, rest⟩ := ih fun z member => total z (List.mem_cons_of_mem _ member)
    exact ⟨y :: ys, .cons related rest⟩

end Bitlens.Lib

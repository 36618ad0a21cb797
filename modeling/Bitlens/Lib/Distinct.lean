import Mathlib.Data.List.Destutter
import Mathlib.Data.List.Sort
import Mathlib.Data.Finset.Card

namespace Bitlens.Lib

variable {α : Type} [LinearOrder α] {xs : List α} {a x : α}

/-- Sorts, and then drops each item that equals the one before it. -/
def sortDedup (xs : List α) : List α :=
  (xs.insertionSort (· ≤ ·)).destutter (· ≠ ·)

theorem mem_destutter_ne : x ∈ xs.destutter' (· ≠ ·) a ↔ x = a ∨ x ∈ xs := by
  induction xs generalizing a with
  | nil => simp
  | cons y ys ih =>
    rw [List.destutter'_cons]
    split
    · rw [List.mem_cons, ih, List.mem_cons]
    · next same =>
      rw [ih, List.mem_cons, not_not.mp same]
      tauto

/-- In a sorted list equal items are next to each other. -/
theorem destutter_ne_strict (sorted : (a :: xs).Pairwise (· ≤ ·)) : (xs.destutter' (· ≠ ·) a).Pairwise (· < ·) := by
  induction xs generalizing a with
  | nil => exact List.pairwise_singleton _ _
  | cons y ys ih =>
    obtain ⟨least, rest⟩ := List.pairwise_cons.mp sorted
    rw [List.destutter'_cons]
    split
    · next different =>
      refine List.pairwise_cons.mpr ⟨fun x member => ?_, ih rest⟩
      have first : a < y := lt_of_le_of_ne (least y List.mem_cons_self) different
      rcases mem_destutter_ne.mp member with rfl | later
      · exact first
      · exact first.trans_le ((List.pairwise_cons.mp rest).1 x later)
    · next same =>
      rw [not_not.mp same]
      exact ih rest

theorem mem_sortDedup : x ∈ sortDedup xs ↔ x ∈ xs := by
  have sorted : x ∈ xs.insertionSort (· ≤ ·) ↔ x ∈ xs := List.mem_insertionSort _
  rw [sortDedup, ← sorted]
  cases xs.insertionSort (· ≤ ·) with
  | nil => rfl
  | cons a ys => rw [List.destutter_cons', mem_destutter_ne, List.mem_cons]

theorem sortDedup_strict (xs : List α) : (sortDedup xs).Pairwise (· < ·) := by
  have sorted := List.pairwise_insertionSort (· ≤ ·) xs
  rw [sortDedup]
  cases equal : xs.insertionSort (· ≤ ·) with
  | nil => exact .nil
  | cons a ys =>
    rw [equal] at sorted
    exact destutter_ne_strict sorted

theorem toFinset_sortDedup (xs : List α) : (sortDedup xs).toFinset = xs.toFinset := by
  ext x
  rw [List.mem_toFinset, List.mem_toFinset, mem_sortDedup]

theorem length_sortDedup (xs : List α) : (sortDedup xs).length = xs.toFinset.card := by
  rw [← toFinset_sortDedup, List.toFinset_card_of_nodup ((sortDedup_strict xs).imp ne_of_lt)]

theorem sortDedup_eq_singleton : sortDedup xs = [a] ↔ xs.toFinset = {a} := by
  constructor
  · intro single
    rw [← toFinset_sortDedup, single]
    rfl
  · intro single
    have one := length_sortDedup xs
    rw [single, Finset.card_singleton] at one
    obtain ⟨b, alone⟩ := List.length_eq_one_iff.mp one
    have member : b ∈ xs.toFinset := by
      rw [List.mem_toFinset, ← mem_sortDedup, alone]
      exact List.mem_singleton_self b
    rw [single, Finset.mem_singleton] at member
    rw [alone, member]

end Bitlens.Lib

import Mathlib.Data.Finset.Basic
import Mathlib.Data.Finset.Dedup
import Mathlib.Data.List.TakeWhile

namespace Bitlens.Lib

variable {α : Type} {p : α → Bool} {xs : List α}

/-- Dropping from the front drops everything that satisfies `p` exactly when nothing
that satisfies it stands behind something that does not. -/
theorem dropWhile_eq_filter_iff :
    xs.dropWhile p = xs.filter (fun x => !p x) ↔ xs.Pairwise fun x y => p y = true → p x = true := by
  induction xs with
  | nil => simp
  | cons x xs ih =>
    rw [List.pairwise_cons]
    cases holds : p x with
    | true => simpa [holds] using ih
    | false =>
      simp only [List.dropWhile_cons, List.filter_cons, holds, Bool.not_false, if_true, Bool.false_eq_true, if_false,
        List.cons.injEq, true_and]
      constructor
      · intro same
        have clear : ∀ y ∈ xs, ¬ p y = true := by
          intro y member
          rw [same] at member
          simpa using (List.mem_filter.mp member).2
        exact ⟨fun y member atY => absurd atY (clear y member),
          List.pairwise_of_forall_mem_list fun _ _ y member atY => absurd atY (clear y member)⟩
      · intro ⟨clear, _⟩
        exact (List.filter_eq_self.mpr fun y member => by simpa using clear y member).symm

/-- Dropping from the front of what `q` keeps gives all that does not satisfy `p`. -/
theorem dropWhile_filter_eq_iff {q : α → Bool} :
    (xs.filter q).dropWhile p = xs.filter (fun x => !p x) ↔
      (∀ x ∈ xs, p x = false → q x = true) ∧ (xs.filter q).Pairwise fun x y => p y = true → p x = true := by
  have inner (inside : ∀ x ∈ xs, p x = false → q x = true) :
      (xs.filter q).filter (fun x => !p x) = xs.filter fun x => !p x := by
    rw [List.filter_filter]
    refine List.filter_congr fun x member => ?_
    cases holds : p x with
    | true => simp
    | false => simp [inside x member holds]
  constructor
  · intro same
    have inside : ∀ x ∈ xs, p x = false → q x = true := by
      intro x member fails
      have kept : x ∈ xs.filter fun x => !p x := by simp [member, fails]
      rw [← same] at kept
      exact (List.mem_filter.mp ((List.dropWhile_sublist _).subset kept)).2
    rw [← inner inside] at same
    exact ⟨inside, dropWhile_eq_filter_iff.mp same⟩
  · rintro ⟨inside, order⟩
    rw [dropWhile_eq_filter_iff.mpr order, inner inside]

theorem takeWhile_append_of_le {ys : List α} (inside : ((xs ++ ys).takeWhile p).length ≤ xs.length) :
    (xs ++ ys).takeWhile p = xs.takeWhile p := by
  rw [List.takeWhile_append] at inside ⊢
  split at inside
  · next all =>
    rw [if_pos all, (List.takeWhile_prefix p).eq_of_length all]
    have none : (ys.takeWhile p).length = 0 := by
      rw [List.length_append] at inside
      omega
    rw [List.eq_nil_of_length_eq_zero none, List.append_nil]
  · next some => rw [if_neg some]

/-- The front ends within `n` elements when one of the first `n + 1` ends it. -/
theorem length_takeWhile_le_iff {n : Nat} (inside : n < xs.length) :
    (xs.takeWhile p).length ≤ n ↔ ∃ x ∈ xs.take (n + 1), p x = false := by
  have length : (xs.take (n + 1)).length = n + 1 := List.length_take_of_le inside
  constructor
  · intro short
    by_contra all
    have whole : (xs.take (n + 1)).takeWhile p = xs.take (n + 1) :=
      List.takeWhile_eq_self_iff.mpr fun x member => by
        by_contra ends
        exact all ⟨x, member, by simpa using ends⟩
    rw [← List.take_append_drop (n + 1) xs, List.takeWhile_append, whole, if_pos rfl, List.length_append] at short
    omega
  · rintro ⟨x, member, ends⟩
    by_contra long
    have front : (xs.takeWhile p).take (n + 1) = xs.take (n + 1) := by
      calc (xs.takeWhile p).take (n + 1) = (xs.takeWhile p ++ xs.dropWhile p).take (n + 1) :=
            (List.take_append_of_le_length (by omega)).symm
        _ = xs.take (n + 1) := by rw [List.takeWhile_append_dropWhile]
    rw [← front] at member
    have holds := List.mem_takeWhile_imp (List.mem_of_mem_take member)
    rw [ends] at holds
    cases holds

theorem drop_length_takeWhile : xs.drop (xs.takeWhile p).length = xs.dropWhile p := by
  have split := List.takeWhile_append_dropWhile (p := p) (l := xs)
  calc xs.drop (xs.takeWhile p).length
    _ = (xs.takeWhile p ++ xs.dropWhile p).drop (xs.takeWhile p).length := by rw [split]
    _ = xs.dropWhile p := List.drop_left

/-- The keys of a list without repetition, less those of its front. -/
theorem toFinset_sdiff_of_nodup [DecidableEq α] {ys : List α} (distinct : (xs ++ ys).Nodup) :
    (xs ++ ys).toFinset \ xs.toFinset = ys.toFinset := by
  have apart := (List.nodup_append.mp distinct).2.2
  ext x
  simp only [Finset.mem_sdiff, List.mem_toFinset, List.mem_append]
  constructor
  · rintro ⟨front | back, notFront⟩
    · exact absurd front notFront
    · exact back
  · intro back
    exact ⟨Or.inr back, fun front => apart x front x back rfl⟩

end Bitlens.Lib

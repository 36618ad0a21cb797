import Mathlib.Algebra.GroupWithZero.Nat
import Mathlib.Algebra.BigOperators.Group.List.Basic
import Bitlens.Lib.Outcome

namespace Bitlens.Lib

namespace Profile

variable {p : Profile} {w a b c : Nat} {xs ys : List Nat}

/-- What adding up `w`-bit integers returns. -/
def sum (p : Profile) (w : Nat) (xs : List Nat) : Outcome Nat :=
  if xs.sum < 2 ^ w then .ok xs.sum else p.overflow (xs.sum % 2 ^ w)

theorem sum_of_lt (bound : xs.sum < 2 ^ w) : p.sum w xs = .ok xs.sum := if_pos bound

theorem sum_of_perm (perm : xs.Perm ys) : p.sum w xs = p.sum w ys := by
  rw [sum, sum, perm.sum_eq]

theorem sum_ne_err : p.sum w xs ≠ .err := by
  unfold sum overflow
  cases p <;> split <;> simp

theorem exists_sum_iff : (∃ v, p.sum w xs = .ok v) ↔ (p = .dev → xs.sum < 2 ^ w) := by
  unfold sum overflow
  cases p <;> split <;> simp_all

theorem sub_eq_fault_iff : p.sub w a b = .fault ↔ p = .dev ∧ a < b := by
  unfold sub overflow
  cases p <;> split <;> simp <;> omega

theorem add_ne_err : p.add w a b ≠ .err := by
  unfold add overflow
  cases p <;> split <;> simp

theorem sub_ne_err : p.sub w a b ≠ .err := by
  unfold sub overflow
  cases p <;> split <;> simp

theorem lt_of_add (result : p.add w a b = .ok c) : c < 2 ^ w := by
  unfold add at result
  split at result
  · next fits =>
    cases result
    exact fits
  · cases p with
    | dev => cases result
    | release =>
      cases result
      exact Nat.mod_lt _ (Nat.two_pow_pos w)

/-- Adding the first two and then the rest is adding them all. -/
theorem sum_cons_of_add (result : p.add w a b = .ok c) : p.sum w (c :: xs) = p.sum w (a :: b :: xs) := by
  unfold add at result
  unfold sum
  rw [List.sum_cons, List.sum_cons, List.sum_cons, ← Nat.add_assoc]
  split at result
  · cases result
    rfl
  · next wraps =>
    cases p with
    | dev => cases result
    | release =>
      cases result
      have big : ¬ a + b + xs.sum < 2 ^ w := by omega
      have wraps : ((a + b) % 2 ^ w + xs.sum) % 2 ^ w = (a + b + xs.sum) % 2 ^ w := Nat.mod_add_mod _ _ _
      rw [if_neg big, overflow, ← wraps]
      split
      · next small =>
        rw [Nat.mod_eq_of_lt small]
        rfl
      · rfl

theorem sum_cons_of_add_fault (result : p.add w a b = .fault) : p.sum w (a :: b :: xs) = .fault := by
  unfold add at result
  split at result
  · cases result
  · next wraps =>
    cases p with
    | dev =>
      rw [sum, List.sum_cons, List.sum_cons, if_neg (by omega)]
      rfl
    | release => cases result

theorem sum_zero_cons : p.sum w (0 :: xs) = p.sum w xs := by
  rw [sum, sum, List.sum_cons, Nat.zero_add]

end Profile

end Bitlens.Lib

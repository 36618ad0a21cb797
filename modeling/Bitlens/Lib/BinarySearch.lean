import Mathlib.Data.List.Basic
import Mathlib.Tactic.Ring

namespace Bitlens.Lib

variable {α : Type}

/-- The loop of `slice::binary_search_by`; the size falls, so the length bounds it. -/
def binarySearchLoop (f : α → Ordering) (xs : List α) : Nat → Nat → Nat → Nat
  | 0, base, _ => base
  | fuel + 1, base, size =>
    if size > 1 then
      let half := size / 2
      let mid := base + half
      binarySearchLoop f xs fuel (if xs[mid]?.map f = some .gt then base else mid) (size - half)
    else base

/-- `slice::binary_search_by`: the index of a match, or where to insert. -/
def binarySearchBy (f : α → Ordering) (xs : List α) : Except Nat Nat :=
  if xs.length = 0 then .error 0
  else
    let base := binarySearchLoop f xs xs.length 0 xs.length
    match xs[base]?.map f with
    | some .eq => .ok base
    | some .lt => .error (base + 1)
    | _ => .error base

/-- The elements below the target stand first and those above it last. -/
def SortedFor (f : α → Ordering) (xs : List α) : Prop :=
  xs.Pairwise fun a b => (f b = .lt → f a = .lt) ∧ (f a = .gt → f b = .gt)

variable {f : α → Ordering} {xs : List α}

theorem SortedFor.gt_of_le (sorted : SortedFor f xs) {i j : Nat} (order : i ≤ j)
    (above : xs[i]?.map f = some .gt) {x : α} (atJ : xs[j]? = some x) : f x = .gt := by
  obtain ⟨y, atI, high⟩ := Option.map_eq_some_iff.mp above
  obtain ⟨boundI, rfl⟩ := List.getElem?_eq_some_iff.mp atI
  obtain ⟨boundJ, rfl⟩ := List.getElem?_eq_some_iff.mp atJ
  rcases Nat.lt_or_eq_of_le order with before | same
  · exact (List.pairwise_iff_getElem.mp sorted i j boundI boundJ before).2 high
  · subst same
    exact high

theorem SortedFor.lt_of_le (sorted : SortedFor f xs) {i j : Nat} (order : i ≤ j)
    (below : xs[j]?.map f = some .lt) {x : α} (atI : xs[i]? = some x) : f x = .lt := by
  obtain ⟨y, atJ, low⟩ := Option.map_eq_some_iff.mp below
  obtain ⟨boundI, rfl⟩ := List.getElem?_eq_some_iff.mp atI
  obtain ⟨boundJ, rfl⟩ := List.getElem?_eq_some_iff.mp atJ
  rcases Nat.lt_or_eq_of_le order with before | same
  · exact (List.pairwise_iff_getElem.mp sorted i j boundI boundJ before).1 low
  · subst same
    exact low

/-- Nothing past the end of the window is at or below the target, and its first
element is not above it unless the window starts the list. -/
theorem SortedFor.loop (sorted : SortedFor f xs) (fuel base size : Nat) (enough : size ≤ fuel)
    (positive : 0 < size) (inside : base + size ≤ xs.length)
    (left : base = 0 ∨ xs[base]?.map f ≠ some .gt)
    (right : ∀ j x, base + size ≤ j → xs[j]? = some x → f x = .gt) :
    binarySearchLoop f xs fuel base size < xs.length ∧
      (binarySearchLoop f xs fuel base size = 0 ∨ xs[binarySearchLoop f xs fuel base size]?.map f ≠ some .gt) ∧
      ∀ j x, binarySearchLoop f xs fuel base size < j → xs[j]? = some x → f x = .gt := by
  induction fuel generalizing base size with
  | zero => omega
  | succ fuel ih =>
    rw [binarySearchLoop]
    split
    · next wide =>
      by_cases above : xs[base + size / 2]?.map f = some .gt
      · simp only [above, if_true]
        refine ih base (size - size / 2) (by omega) (by omega) (by omega) left ?_
        intro j x far atJ
        exact sorted.gt_of_le (by omega) above atJ
      · simp only [above, if_false]
        refine ih (base + size / 2) (size - size / 2) (by omega) (by omega) (by omega) (Or.inr above) ?_
        intro j x far atJ
        exact right j x (by omega) atJ
    · next narrow =>
      refine ⟨by omega, left, ?_⟩
      intro j x far atJ
      exact right j x (by omega) atJ

theorem SortedFor.base (sorted : SortedFor f xs) (nonempty : xs.length ≠ 0) :
    binarySearchLoop f xs xs.length 0 xs.length < xs.length ∧
      (binarySearchLoop f xs xs.length 0 xs.length = 0 ∨
        xs[binarySearchLoop f xs xs.length 0 xs.length]?.map f ≠ some .gt) ∧
      ∀ j x, binarySearchLoop f xs xs.length 0 xs.length < j → xs[j]? = some x → f x = .gt := by
  refine sorted.loop xs.length 0 xs.length (Nat.le_refl _) (by omega) (by omega) (Or.inl rfl) ?_
  intro j x far atJ
  obtain ⟨bound, _⟩ := List.getElem?_eq_some_iff.mp atJ
  omega

theorem binarySearchBy_ok {i : Nat} (result : binarySearchBy f xs = .ok i) :
    ∃ x, xs[i]? = some x ∧ f x = .eq := by
  unfold binarySearchBy at result
  split at result
  · cases result
  · dsimp only at result
    split at result
    · next equal =>
      cases result
      exact Option.map_eq_some_iff.mp equal
    · cases result
    · cases result

/-- Where to insert: below the target before the index, above it from there on. -/
theorem SortedFor.binarySearchBy_error (sorted : SortedFor f xs) {i : Nat}
    (result : binarySearchBy f xs = .error i) :
    i ≤ xs.length ∧ (∀ x ∈ xs.take i, f x = .lt) ∧ ∀ x ∈ xs.drop i, f x = .gt := by
  unfold binarySearchBy at result
  split at result
  · next empty =>
    cases result
    rw [List.length_eq_zero_iff.mp empty]
    simp
  · next nonempty =>
    obtain ⟨inside, left, right⟩ := sorted.base nonempty
    dsimp only at result
    split at result
    · cases result
    · next below =>
      cases result
      refine ⟨inside, ?_, ?_⟩
      · intro x member
        obtain ⟨j, bound, rfl⟩ := List.mem_take_iff_getElem.mp member
        exact sorted.lt_of_le (by omega) below (List.getElem?_eq_getElem _)
      · intro x member
        obtain ⟨j, bound, rfl⟩ := List.mem_drop_iff_getElem.mp member
        exact right _ _ (by omega) (List.getElem?_eq_getElem _)
    · next notEq notLt =>
      cases result
      have above : xs[binarySearchLoop f xs xs.length 0 xs.length]?.map f = some .gt := by
        rw [List.getElem?_eq_getElem inside, Option.map_some] at notEq notLt ⊢
        cases order : f xs[binarySearchLoop f xs xs.length 0 xs.length] with
        | lt => exact absurd (by rw [order]) notLt
        | eq => exact absurd (by rw [order]) notEq
        | gt => rfl
      have start := left.resolve_right (not_not_intro above)
      rw [start] at above ⊢
      refine ⟨Nat.zero_le _, by simp, ?_⟩
      intro x member
      obtain ⟨j, bound, rfl⟩ := List.mem_drop_iff_getElem.mp member
      exact sorted.gt_of_le (Nat.zero_le _) above (List.getElem?_eq_getElem _)

theorem insertIdx_eq_append {i : Nat} (inside : i ≤ xs.length) (a : α) :
    xs.insertIdx i a = xs.take i ++ a :: xs.drop i := by
  induction i generalizing xs with
  | zero => rfl
  | succ i ih =>
    cases xs with
    | nil => simp at inside
    | cons x xs =>
      rw [List.insertIdx_succ_cons, ih (Nat.le_of_succ_le_succ inside)]
      rfl

end Bitlens.Lib

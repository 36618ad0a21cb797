import Mathlib.Data.Set.Function
import Mathlib.Data.List.Basic

/-! Trees of hashes over a list of leaves, where an odd level repeats its last node. -/

namespace Bitlens.Lib.Merkle

variable {κ : Type} {combine : κ → κ → κ} {zero : κ} {xs ys : List κ}

/-- The nodes of a level in pairs. -/
def pairs : List κ → List (κ × κ)
  | left :: right :: rest => (left, right) :: pairs rest
  | [last] => [(last, last)]
  | [] => []

/-- The next level. -/
def up (combine : κ → κ → κ) (nodes : List κ) : List κ :=
  (pairs nodes).map fun pair => combine pair.1 pair.2

theorem length_pairs (nodes : List κ) : (pairs nodes).length = (nodes.length + 1) / 2 := by
  fun_induction pairs nodes with
  | case1 left right rest ih =>
    rw [List.length_cons, ih, List.length_cons, List.length_cons]
    omega
  | case2 last => simp
  | case3 => simp

/-- Writing the last node of an odd level twice leaves the pairs as they are. -/
theorem pairs_repeat_last {init : List κ} (even : init.length % 2 = 0) (last : κ) :
    pairs (init ++ [last, last]) = pairs (init ++ [last]) := by
  fun_induction pairs init with
  | case1 left right rest ih =>
    rw [List.length_cons, List.length_cons] at even
    rw [List.cons_append, List.cons_append, List.cons_append, List.cons_append, pairs, pairs, ih (by omega)]
  | case2 node => cases even
  | case3 => rfl

@[simp] theorem length_up (nodes : List κ) : (up combine nodes).length = (nodes.length + 1) / 2 := by
  rw [up, List.length_map, length_pairs]

theorem length_up_lt (first second : κ) (rest : List κ) :
    (up combine (first :: second :: rest)).length < (first :: second :: rest).length := by
  rw [length_up, List.length_cons, List.length_cons]
  omega

/-- The root of a tree; `zero` stands for the tree without leaves. -/
def root (combine : κ → κ → κ) (zero : κ) : List κ → κ
  | [] => zero
  | [node] => node
  | first :: second :: rest => root combine zero (up combine (first :: second :: rest))
termination_by nodes => nodes.length
decreasing_by exact length_up_lt first second rest

/-- The number of levels over a number of leaves. -/
def levels : Nat → Nat
  | 0 => 0
  | 1 => 1
  | count + 2 => levels ((count + 3) / 2) + 1

/-- All pairs that are combined on the way to the root. -/
def hashed (combine : κ → κ → κ) : List κ → List (κ × κ)
  | [] => []
  | [_] => []
  | first :: second :: rest =>
    pairs (first :: second :: rest) ++ hashed combine (up combine (first :: second :: rest))
termination_by nodes => nodes.length
decreasing_by exact length_up_lt first second rest

/-- Induction from the root down to the leaves. -/
theorem levelInduction {P : List κ → Prop} (combine : κ → κ → κ) (empty : P []) (single : ∀ node, P [node])
    (level : ∀ first second rest, P (up combine (first :: second :: rest)) → P (first :: second :: rest))
    (nodes : List κ) : P nodes := by
  induction size : nodes.length using Nat.strong_induction_on generalizing nodes with
  | _ size ih =>
    match nodes with
    | [] => exact empty
    | [node] => exact single node
    | first :: second :: rest =>
      have smaller := @length_up_lt _ combine first second rest
      exact level first second rest (ih _ (by omega) _ rfl)

theorem levels_eq_zero_iff {count : Nat} : levels count = 0 ↔ count = 0 := by
  match count with
  | 0 => simp [levels]
  | 1 => simp [levels]
  | count + 2 => simp [levels]

theorem levels_eq_one_iff {count : Nat} : levels count = 1 ↔ count = 1 := by
  match count with
  | 0 => simp [levels]
  | 1 => simp [levels]
  | count + 2 =>
    rw [levels, Nat.add_eq_right, levels_eq_zero_iff]
    omega

theorem levels_length (first second : κ) (rest : List κ) :
    levels (first :: second :: rest).length = levels (up combine (first :: second :: rest)).length + 1 := by
  rw [length_up, List.length_cons, List.length_cons, levels]

/-- A function without collisions on the elements of two lists tells the lists apart. -/
theorem eq_of_map_eq {α β : Type} {f : α → β} {as bs : List α} (injective : ∀ a ∈ as, ∀ b ∈ bs, f a = f b → a = b)
    (same : as.map f = bs.map f) : as = bs := by
  induction as generalizing bs with
  | nil => exact (List.map_eq_nil_iff.mp same.symm).symm
  | cons a as ih =>
    cases bs with
    | nil => cases same
    | cons b bs =>
      obtain ⟨first, behind⟩ := List.cons.inj same
      rw [injective a List.mem_cons_self b List.mem_cons_self first,
        ih (fun x inAs y inBs => injective x (List.mem_cons_of_mem _ inAs) y (List.mem_cons_of_mem _ inBs)) behind]

section Repeats

variable [DecidableEq κ]

/-- Two neighbouring nodes are equal. -/
def repeats : List κ → Bool
  | first :: second :: rest => first = second || repeats (second :: rest)
  | _ => false

/-- Some level below the root has two equal neighbours. -/
def mutated (combine : κ → κ → κ) : List κ → Bool
  | [] => false
  | [_] => false
  | first :: second :: rest =>
    repeats (first :: second :: rest) || mutated combine (up combine (first :: second :: rest))
termination_by nodes => nodes.length
decreasing_by exact length_up_lt first second rest

theorem repeats_tail {node : κ} {nodes : List κ} (clean : repeats (node :: nodes) = false) : repeats nodes = false := by
  cases nodes with
  | nil => rfl
  | cons next nodes =>
    rw [repeats, Bool.or_eq_false_iff] at clean
    exact clean.2

/-- Without equal neighbours a level is determined by its pairs. -/
theorem pairs_inj (cleanXs : repeats xs = false) (cleanYs : repeats ys = false) (same : pairs xs = pairs ys) :
    xs = ys := by
  fun_induction pairs xs generalizing ys with
  | case1 left right rest ih =>
    match ys with
    | [] => cases same
    | [last] =>
      -- the pair of a repeated last node has equal halves
      obtain ⟨pair, _⟩ := List.cons.inj same
      cases pair
      simp [repeats] at cleanXs
    | left' :: right' :: rest' =>
      obtain ⟨pair, behind⟩ := List.cons.inj same
      cases pair
      rw [repeats, Bool.or_eq_false_iff] at cleanXs cleanYs
      rw [ih (repeats_tail cleanXs.2) (repeats_tail cleanYs.2) behind]
  | case2 last =>
    match ys with
    | [] => cases same
    | [last'] =>
      cases same
      rfl
    | left' :: right' :: rest' =>
      obtain ⟨pair, _⟩ := List.cons.inj same
      cases pair
      simp [repeats] at cleanYs
  | case3 =>
    match ys with
    | [] => rfl
    | [_] => cases same
    | _ :: _ :: _ => cases same

/-- Two trees with as many levels, the same root and no equal neighbours have the same
leaves, if no two pairs that are combined in them collide. -/
theorem root_inj (xs ys : List κ)
    (injective : Set.InjOn (fun pair : κ × κ => combine pair.1 pair.2)
      {pair | pair ∈ hashed combine xs ∨ pair ∈ hashed combine ys})
    (sameLevels : levels xs.length = levels ys.length) (sameRoot : root combine zero xs = root combine zero ys)
    (cleanXs : mutated combine xs = false) (cleanYs : mutated combine ys = false) : xs = ys := by
  induction xs using levelInduction combine generalizing ys with
  | empty =>
    have none_ : ys.length = 0 := levels_eq_zero_iff.mp (sameLevels.symm.trans (levels_eq_zero_iff.mpr rfl))
    exact (List.length_eq_zero_iff.mp none_).symm
  | single node =>
    have one : ys.length = 1 := levels_eq_one_iff.mp (sameLevels.symm.trans (levels_eq_one_iff.mpr rfl))
    obtain ⟨node', rfl⟩ := List.length_eq_one_iff.mp one
    rw [root, root] at sameRoot
    rw [sameRoot]
  | level first second rest ih =>
    match ys with
    | [] =>
      have none_ := levels_eq_zero_iff.mp (sameLevels.trans (levels_eq_zero_iff.mpr rfl))
      cases none_
    | [node] =>
      have one := levels_eq_one_iff.mp (sameLevels.trans (levels_eq_one_iff.mpr rfl))
      cases one
    | first' :: second' :: rest' =>
      rw [mutated, Bool.or_eq_false_iff] at cleanXs cleanYs
      rw [root, root] at sameRoot
      rw [hashed, hashed] at injective
      rw [@levels_length _ combine, @levels_length _ combine] at sameLevels
      have below : up combine (first :: second :: rest) = up combine (first' :: second' :: rest') := by
        refine ih _ (injective.mono fun pair member => ?_) (Nat.succ.inj sameLevels) sameRoot cleanXs.2 cleanYs.2
        exact member.imp (List.mem_append_right _) (List.mem_append_right _)
      refine pairs_inj cleanXs.1 cleanYs.1 (eq_of_map_eq (fun pair inXs pair' inYs collide => ?_) below)
      exact injective (Or.inl (List.mem_append_left _ inXs)) (Or.inr (List.mem_append_left _ inYs)) collide

end Repeats

end Bitlens.Lib.Merkle

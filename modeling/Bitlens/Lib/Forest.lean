import Mathlib.Logic.Relation
import Mathlib.Data.List.Basic

namespace Bitlens.Lib

open Relation

variable {κ : Type} {parent : κ → Option κ}

/-- `y` lies on the path from `x` along parent pointers, `x` included. -/
def Descends (parent : κ → Option κ) (x y : κ) : Prop :=
  ReflTransGen (fun a b => parent a = some b) x y

theorem Descends.refl (x : κ) : Descends parent x x := ReflTransGen.refl

theorem Descends.trans {x y z : κ} (upper : Descends parent x y) (lower : Descends parent y z) :
    Descends parent x z := ReflTransGen.trans upper lower

theorem Descends.head {x y z : κ} (first : parent x = some y) (rest : Descends parent y z) :
    Descends parent x z := ReflTransGen.head first rest

theorem Descends.tail {x y z : κ} (path : Descends parent x y) (last : parent y = some z) :
    Descends parent x z := ReflTransGen.tail path last

theorem Descends.of_parent {x y : κ} (edge : parent x = some y) : Descends parent x y :=
  ReflTransGen.single edge

theorem descends_iff_eq_or {x y : κ} :
    Descends parent x y ↔ y = x ∨ ∃ z, parent x = some z ∧ Descends parent z y := by
  constructor
  · intro path
    rcases ReflTransGen.cases_head path with same | ⟨z, edge, rest⟩
    · exact Or.inl same.symm
    · exact Or.inr ⟨z, edge, rest⟩
  · rintro (rfl | ⟨z, edge, rest⟩)
    · exact .refl _
    · exact .head edge rest

theorem descends_iff_of_parent {x y z : κ} (edge : parent x = some z) :
    Descends parent x y ↔ y = x ∨ Descends parent z y := by
  rw [descends_iff_eq_or]
  simp [edge]

theorem descends_iff_of_root {x y : κ} (root : parent x = none) : Descends parent x y ↔ y = x := by
  rw [descends_iff_eq_or]
  simp [root]

/-- A path leaves each node through its only parent, so two nodes on one path
are comparable. -/
theorem Descends.comparable {x y z : κ} (first : Descends parent x y) (second : Descends parent x z) :
    Descends parent y z ∨ Descends parent z y :=
  ReflTransGen.total_of_right_unique (fun _ _ _ one two => Option.some.inj (one.symm.trans two))
    first second

/-- `nodes` are the nodes visited from `x` up to and without `y`, `x` first. -/
inductive Walk (parent : κ → Option κ) : κ → List κ → κ → Prop
  | nil (x : κ) : Walk parent x [] x
  | cons {x y z : κ} {nodes : List κ} : parent x = some y → Walk parent y nodes z → Walk parent x (x :: nodes) z

theorem Walk.descends {x y : κ} {nodes : List κ} (walk : Walk parent x nodes y) : Descends parent x y := by
  induction walk with
  | nil => exact .refl _
  | cons edge _ ih => exact .head edge ih

theorem Walk.snoc {x y z : κ} {nodes : List κ} (walk : Walk parent x nodes y) (edge : parent y = some z) :
    Walk parent x (nodes ++ [y]) z := by
  induction walk with
  | nil => exact .cons edge (.nil _)
  | cons first _ ih => exact .cons first (ih edge)

theorem Walk.append {x y z : κ} {front back : List κ} (first : Walk parent x front y) (rest : Walk parent y back z) :
    Walk parent x (front ++ back) z := by
  induction first with
  | nil => exact rest
  | cons edge _ ih => exact .cons edge (ih rest)

/-- The path from `x` consists of the nodes of the walk and the path from its end. -/
theorem Walk.descends_iff {x y z : κ} {nodes : List κ} (walk : Walk parent x nodes y) :
    Descends parent x z ↔ z ∈ nodes ∨ Descends parent y z := by
  induction walk with
  | nil => simp
  | cons edge _ ih => rw [descends_iff_of_parent edge, ih, List.mem_cons, or_assoc]

/-- `z` is on the path from `x`, strictly above `m`. -/
def Above (parent : κ → Option κ) (x m z : κ) : Prop :=
  Descends parent x z ∧ Descends parent z m ∧ z ≠ m

/-- Two parent functions that agree on a set closed under parents have the same
paths from its members. -/
theorem descends_congr {other : κ → Option κ} {on : κ → Prop} {x y : κ}
    (closed : ∀ a b, on a → parent a = some b → on b) (agree : ∀ a, on a → other a = parent a)
    (member : on x) : Descends other x y ↔ Descends parent x y := by
  constructor
  · intro path
    have both : on y ∧ Descends parent x y := by
      induction path with
      | refl => exact ⟨member, .refl _⟩
      | @tail b d _ edge ih =>
        have edge' : parent b = some d := (agree b ih.1).symm.trans edge
        exact ⟨closed _ _ ih.1 edge', ih.2.tail edge'⟩
    exact both.2
  · intro path
    have both : on y ∧ Descends other x y := by
      induction path with
      | refl => exact ⟨member, .refl _⟩
      | @tail b d _ edge ih =>
        exact ⟨closed _ _ ih.1 edge, ih.2.tail ((agree b ih.1).trans edge)⟩
    exact both.2

/-- Heights fall by one along each edge that leaves a member of `on`. -/
def GradedOn (on : κ → Prop) (parent : κ → Option κ) (height : κ → Nat) : Prop :=
  ∀ x y, on x → parent x = some y → on y ∧ height x = height y + 1

section Graded

variable {on : κ → Prop} {height : κ → Nat}

theorem GradedOn.descends (graded : GradedOn on parent height) {x y : κ} (member : on x)
    (path : Descends parent x y) : on y ∧ height y ≤ height x := by
  induction path with
  | refl => exact ⟨member, Nat.le_refl _⟩
  | @tail b c _ edge ih =>
    obtain ⟨onB, below⟩ := ih
    obtain ⟨onC, step⟩ := graded _ _ onB edge
    exact ⟨onC, by omega⟩

theorem GradedOn.eq_of_descends (graded : GradedOn on parent height) {x y : κ} (member : on x)
    (path : Descends parent x y) (level : height x = height y) : y = x := by
  rcases descends_iff_eq_or.mp path with same | ⟨z, edge, rest⟩
  · exact same
  · obtain ⟨onZ, step⟩ := graded _ _ member edge
    have below := (graded.descends onZ rest).2
    omega

/-- A path has at most one node at each height. -/
theorem GradedOn.unique (graded : GradedOn on parent height) {x y z : κ} (member : on x)
    (first : Descends parent x y) (second : Descends parent x z) (level : height y = height z) : y = z := by
  have onY := (graded.descends member first).1
  have onZ := (graded.descends member second).1
  rcases first.comparable second with path | path
  · exact (graded.eq_of_descends onY path level).symm
  · exact graded.eq_of_descends onZ path level.symm

theorem GradedOn.height_lt_of_walk (graded : GradedOn on parent height) {x y z : κ} {nodes : List κ} (member : on x)
    (walk : Walk parent x nodes y) (inWalk : z ∈ nodes) : height y < height z := by
  induction walk with
  | nil => cases inWalk
  | cons edge rest ih =>
    obtain ⟨onNext, step⟩ := graded _ _ member edge
    rcases List.mem_cons.mp inWalk with same | later
    · have := (graded.descends onNext rest.descends).2
      rw [same]
      omega
    · exact ih onNext later

theorem GradedOn.walk_nodup (graded : GradedOn on parent height) {x y : κ} {nodes : List κ} (member : on x)
    (walk : Walk parent x nodes y) : nodes.Nodup := by
  induction walk with
  | nil => exact List.nodup_nil
  | @cons x z y nodes edge rest ih =>
    obtain ⟨onNext, step⟩ := graded _ _ member edge
    refine List.nodup_cons.mpr ⟨fun again => ?_, ih onNext⟩
    have below := (graded.descends onNext ((rest.descends_iff (z := x)).mpr (Or.inl again))).2
    omega

/-- A walk visits exactly the nodes of the path that are strictly above its end. -/
theorem GradedOn.mem_walk_iff (graded : GradedOn on parent height) {x m z : κ} {nodes : List κ} (member : on x)
    (walk : Walk parent x nodes m) : z ∈ nodes ↔ Above parent x m z := by
  constructor
  · intro inWalk
    have path := walk.descends_iff.mpr (Or.inl inWalk)
    have higher := graded.height_lt_of_walk member walk inWalk
    refine ⟨path, ?_, fun same => by rw [same] at higher; exact Nat.lt_irrefl _ higher⟩
    rcases path.comparable walk.descends with below | above
    · exact below
    · have := (graded.descends (graded.descends member walk.descends).1 above).2
      omega
  · intro ⟨path, below, apart⟩
    rcases walk.descends_iff.mp path with inWalk | above
    · exact inWalk
    · have onZ := (graded.descends member path).1
      have level := (graded.descends onZ below).2
      have onM := (graded.descends onZ below).1
      have level' := (graded.descends onM above).2
      exact absurd (graded.eq_of_descends onM above (Nat.le_antisymm level level')) apart

end Graded

/-- `m` is the last common ancestor of `x` and `y`. -/
structure LastCommon (parent : κ → Option κ) (x y m : κ) : Prop where
  left : Descends parent x m
  right : Descends parent y m
  last : ∀ k, Descends parent x k → Descends parent y k → Descends parent m k

theorem LastCommon.refl (x : κ) : LastCommon parent x x x :=
  ⟨.refl x, .refl x, fun _ path _ => path⟩

theorem LastCommon.symm {x y m : κ} (common : LastCommon parent x y m) : LastCommon parent y x m :=
  ⟨common.right, common.left, fun k first second => common.last k second first⟩

theorem GradedOn.lastCommon_unique {on : κ → Prop} {height : κ → Nat} (graded : GradedOn on parent height) {x y m k : κ}
    (member : on x) (first : LastCommon parent x y m) (second : LastCommon parent x y k) : m = k := by
  have onM := (graded.descends member first.left).1
  have onK := (graded.descends member second.left).1
  have below := second.last m first.left first.right
  have above := first.last k second.left second.right
  have level := (graded.descends onK below).2
  have level' := (graded.descends onM above).2
  exact graded.eq_of_descends onK below (by omega)

/-- Walking down from `x` over nodes that are not on the path of `y` keeps the last
common ancestor. -/
theorem Walk.lastCommon {x y a m : κ} {nodes : List κ} (walk : Walk parent x nodes a)
    (apart : ∀ z ∈ nodes, ¬ Descends parent y z) (common : LastCommon parent a y m) : LastCommon parent x y m := by
  refine ⟨walk.descends.trans common.left, common.right, fun k first second => ?_⟩
  rcases walk.descends_iff.mp first with inWalk | below
  · exact absurd second (apart k inWalk)
  · exact common.last k below second

/-- A list of nodes, oldest first, whose parents are in `base` or earlier in
the list. -/
def ParentsFirst (parent : κ → Option κ) (base : κ → Prop) : List κ → Prop
  | [] => True
  | x :: xs => (∀ y, parent x = some y → base y) ∧ ParentsFirst parent (fun y => base y ∨ y = x) xs

theorem ParentsFirst.mono {base wider : κ → Prop} {nodes : List κ} (first : ParentsFirst parent base nodes)
    (grow : ∀ y, base y → wider y) : ParentsFirst parent wider nodes := by
  induction nodes generalizing base wider with
  | nil => trivial
  | cons x xs ih =>
    exact ⟨fun y edge => grow y (first.1 y edge), ih first.2 fun y member => member.imp_left (grow y)⟩

theorem parentsFirst_append {base : κ → Prop} {front back : List κ} :
    ParentsFirst parent base (front ++ back) ↔
      ParentsFirst parent base front ∧ ParentsFirst parent (fun y => base y ∨ y ∈ front) back := by
  induction front generalizing base with
  | nil => simp [ParentsFirst]
  | cons x xs ih =>
    have same : (fun y => (base y ∨ y = x) ∨ y ∈ xs) = fun y => base y ∨ y ∈ x :: xs := by
      funext y
      simp [or_assoc]
    simp only [List.cons_append, ParentsFirst, ih, same, and_assoc]

theorem ParentsFirst.parent_mem {base : κ → Prop} {nodes : List κ} (order : ParentsFirst parent base nodes)
    {x y : κ} (member : x ∈ nodes) (edge : parent x = some y) : base y ∨ y ∈ nodes := by
  induction nodes generalizing base with
  | nil => cases member
  | cons z zs ih =>
    rcases List.mem_cons.mp member with same | later
    · subst same
      exact Or.inl (order.1 y edge)
    · rcases ih order.2 later with (known | same) | after
      · exact Or.inl known
      · exact Or.inr (by simp [same])
      · exact Or.inr (List.mem_cons_of_mem _ after)

/-- A walk read backwards lists parents before children. -/
theorem Walk.parentsFirst {base : κ → Prop} {x y : κ} {nodes : List κ} (walk : Walk parent x nodes y)
    (bottom : base y) : ParentsFirst parent base nodes.reverse := by
  induction walk with
  | nil => trivial
  | @cons x z y nodes edge rest ih =>
    rw [List.reverse_cons, parentsFirst_append]
    refine ⟨ih bottom, ?_, trivial⟩
    intro w toW
    cases Option.some.inj (edge.symm.trans toW)
    cases rest with
    | nil => exact Or.inl bottom
    | cons => exact Or.inr (by simp)

/-- Nodes in order of height come after their parents. -/
theorem parentsFirst_of_sorted {base : κ → Prop} (height : κ → Nat) {nodes : List κ}
    (sorted : nodes.Pairwise fun x y => height x ≤ height y)
    (closed : ∀ x ∈ nodes, ∀ y, parent x = some y → base y ∨ (y ∈ nodes ∧ height y < height x)) :
    ParentsFirst parent base nodes := by
  induction nodes generalizing base with
  | nil => trivial
  | cons x xs ih =>
    obtain ⟨lowest, sortedTail⟩ := List.pairwise_cons.mp sorted
    refine ⟨fun y edge => ?_, ih sortedTail fun z member y edge => ?_⟩
    · rcases closed x List.mem_cons_self y edge with known | ⟨member, below⟩
      · exact known
      · rcases List.mem_cons.mp member with same | later
        · rw [same] at below
          omega
        · have := lowest y later
          omega
    · rcases closed z (List.mem_cons_of_mem _ member) y edge with known | ⟨inNodes, below⟩
      · exact Or.inl (Or.inl known)
      · rcases List.mem_cons.mp inNodes with same | later
        · exact Or.inl (Or.inr same)
        · exact Or.inr ⟨later, below⟩

end Bitlens.Lib

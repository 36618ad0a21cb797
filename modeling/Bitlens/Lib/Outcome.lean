import Mathlib.Algebra.Group.Nat.Defs
import Mathlib.Data.List.Forall2
import Mathlib.Logic.Basic

namespace Bitlens.Lib

/-- How a call ends. `fault` is every way of not returning: a panic, a failed
`unwrap`, an index out of range, or a loop that runs for ever. -/
inductive Outcome (α : Type) where
  | ok (value : α)
  | err
  | fault
  deriving DecidableEq, Repr

namespace Outcome

variable {α β γ : Type}

def bind (x : Outcome α) (f : α → Outcome β) : Outcome β :=
  match x with
  | .ok a => f a
  | .err => .err
  | .fault => .fault

instance : Monad Outcome where
  pure := .ok
  bind := bind

/-- `Option::unwrap` and `Option::expect`. -/
def unwrap : Option α → Outcome α
  | some a => .ok a
  | none => .fault

/-- An early `bail!` when a condition does not hold. -/
def ensure (condition : Bool) : Outcome Unit :=
  if condition then .ok () else .err

/-- `Option::ok_or(..)?`. -/
def orErr : Option α → Outcome α
  | some a => .ok a
  | none => .err

@[simp] theorem pure_def (a : α) : (pure a : Outcome α) = .ok a := rfl

@[simp] theorem ok_bind (a : α) (f : α → Outcome β) : (Outcome.ok a >>= f) = f a := rfl

@[simp] theorem err_bind (f : α → Outcome β) : ((.err : Outcome α) >>= f) = .err := rfl

@[simp] theorem fault_bind (f : α → Outcome β) : ((.fault : Outcome α) >>= f) = .fault := rfl

@[simp] theorem unwrap_some (a : α) : unwrap (some a) = .ok a := rfl

@[simp] theorem unwrap_none : unwrap (none : Option α) = .fault := rfl

@[simp] theorem orErr_some (a : α) : orErr (some a) = .ok a := rfl

@[simp] theorem orErr_none : orErr (none : Option α) = .err := rfl

theorem bind_eq_ok {x : Outcome α} {f : α → Outcome β} {b : β} :
    x >>= f = .ok b ↔ ∃ a, x = .ok a ∧ f a = .ok b := by
  cases x <;> simp

theorem unwrap_eq_ok {x : Option α} {a : α} : unwrap x = .ok a ↔ x = some a := by
  cases x <;> simp

theorem orErr_eq_ok {x : Option α} {a : α} : orErr x = .ok a ↔ x = some a := by
  cases x <;> simp

/-- Collects results in order; the first failure ends the loop. -/
def mapM (f : α → Outcome β) : List α → Outcome (List β)
  | [] => .ok []
  | x :: xs => do
    let y ← f x
    let ys ← mapM f xs
    pure (y :: ys)

theorem mapM_forall₂ {R : α → β → Prop} {f : α → Outcome β} {xs : List α}
    (each : ∀ x ∈ xs, ∃ y, f x = .ok y ∧ R x y) : ∃ ys, mapM f xs = .ok ys ∧ List.Forall₂ R xs ys := by
  induction xs with
  | nil => exact ⟨[], rfl, .nil⟩
  | cons x xs ih =>
    obtain ⟨y, atX, related⟩ := each x List.mem_cons_self
    obtain ⟨ys, atXs, rest⟩ := ih fun x member => each x (List.mem_cons_of_mem _ member)
    refine ⟨y :: ys, ?_, .cons related rest⟩
    rw [mapM, atX, atXs]
    rfl

theorem mapM_eq_ok {γ : Type} {f : α → Outcome β} {g : γ → α} {h : γ → β} {xs : List γ}
    (each : ∀ x ∈ xs, f (g x) = .ok (h x)) : mapM f (xs.map g) = .ok (xs.map h) := by
  induction xs with
  | nil => rfl
  | cons x xs ih =>
    rw [List.forall_mem_cons] at each
    rw [List.map_cons, mapM, each.1, ih each.2]
    rfl

/-- Collects lists in order; the first failure ends the loop. -/
def flatMapM (f : α → Outcome (List β)) : List α → Outcome (List β)
  | [] => .ok []
  | x :: xs => do
    let front ← f x
    let back ← flatMapM f xs
    pure (front ++ back)

/-- The loop gets through when it does for each element. -/
theorem exists_flatMapM {f : α → Outcome (List β)} {xs : List α} :
    (∃ zs, flatMapM f xs = .ok zs) ↔ ∀ x ∈ xs, ∃ ys, f x = .ok ys := by
  induction xs with
  | nil => simp [flatMapM]
  | cons x xs ih =>
    simp only [flatMapM, bind_eq_ok, pure_def, ok.injEq, List.forall_mem_cons, ← ih]
    constructor
    · intro ⟨zs, front, atX, back, atXs, _⟩
      exact ⟨⟨front, atX⟩, ⟨back, atXs⟩⟩
    · intro ⟨⟨front, atX⟩, ⟨back, atXs⟩⟩
      exact ⟨front ++ back, front, atX, back, atXs, rfl⟩

theorem mem_of_flatMapM {f : α → Outcome (List β)} {xs : List α} {zs : List β} {z : β} (result : flatMapM f xs = .ok zs)
    (member : z ∈ zs) : ∃ x ∈ xs, ∃ ys, f x = .ok ys ∧ z ∈ ys := by
  induction xs generalizing zs with
  | nil =>
    cases result
    cases member
  | cons x xs ih =>
    obtain ⟨front, atX, result⟩ := bind_eq_ok.mp result
    obtain ⟨back, atXs, result⟩ := bind_eq_ok.mp result
    cases result
    rcases List.mem_append.mp member with inFront | inBack
    · exact ⟨x, List.mem_cons_self, front, atX, inFront⟩
    · obtain ⟨y, inXs, found⟩ := ih atXs inBack
      exact ⟨y, List.mem_cons_of_mem _ inXs, found⟩

/-- What each element contributes, up to order, from a list that is related to the
elements one by one. -/
theorem perm_of_flatMapM {γ δ : Type} {R : γ → α → Prop} {f : α → Outcome (List β)} {g : β → δ} {h : γ → List δ}
    {cs : List γ} {xs : List α} {zs : List β} (related : List.Forall₂ R cs xs)
    (each : ∀ c x ys, R c x → f x = .ok ys → (ys.map g).Perm (h c)) (result : flatMapM f xs = .ok zs) :
    (zs.map g).Perm (cs.flatMap h) := by
  induction related generalizing zs with
  | nil =>
    cases result
    exact .nil
  | cons first _ ih =>
    obtain ⟨front, atX, result⟩ := bind_eq_ok.mp result
    obtain ⟨back, atXs, result⟩ := bind_eq_ok.mp result
    cases result
    rw [List.map_append, List.flatMap_cons]
    exact (each _ _ _ first atX).append (ih atXs)

/-- Elements with names of their own contribute keys of their own. -/
theorem nodup_of_flatMapM {δ ε : Type} {f : α → Outcome (List β)} {g : β → δ} {name : α → ε} {named : δ → ε} {xs : List α}
    {zs : List β} (distinct : (xs.map name).Nodup)
    (each : ∀ x ∈ xs, ∀ ys, f x = .ok ys → (ys.map g).Nodup ∧ ∀ y ∈ ys, named (g y) = name x)
    (result : flatMapM f xs = .ok zs) : (zs.map g).Nodup := by
  induction xs generalizing zs with
  | nil =>
    cases result
    exact List.nodup_nil
  | cons x xs ih =>
    obtain ⟨front, atX, result⟩ := bind_eq_ok.mp result
    obtain ⟨back, atXs, result⟩ := bind_eq_ok.mp result
    cases result
    rw [List.map_cons, List.nodup_cons] at distinct
    have later := fun other member => each other (List.mem_cons_of_mem _ member)
    obtain ⟨once, names⟩ := each x List.mem_cons_self front atX
    rw [List.map_append]
    refine List.nodup_append.mpr ⟨once, ih distinct.2 later atXs, ?_⟩
    rintro key inFront _ inBack rfl
    obtain ⟨y, member, rfl⟩ := List.mem_map.mp inFront
    obtain ⟨z, member', same⟩ := List.mem_map.mp inBack
    obtain ⟨other, inXs, ys, atOther, inYs⟩ := mem_of_flatMapM atXs member'
    have equal : name other = name x := by
      rw [← (later other inXs ys atOther).2 z inYs, same, names y member]
    exact distinct.1 (equal ▸ List.mem_map_of_mem inXs)

/-- The loop gets through and collects what each element should give, up to the order
within an element. -/
theorem flatMapM_perm {γ : Type} {R : γ → α → Prop} {f : α → Outcome (List β)} {h : γ → List β} {cs : List γ}
    {xs : List α} (related : List.Forall₂ R cs xs) (each : ∀ c ∈ cs, ∀ x, R c x → ∃ ys, f x = .ok ys ∧ ys.Perm (h c)) :
    ∃ zs, flatMapM f xs = .ok zs ∧ zs.Perm (cs.flatMap h) := by
  induction related with
  | nil => exact ⟨[], rfl, .nil⟩
  | cons first _ ih =>
    obtain ⟨front, atX, inFront⟩ := each _ List.mem_cons_self _ first
    obtain ⟨back, atXs, inBack⟩ := ih fun c member => each c (List.mem_cons_of_mem _ member)
    refine ⟨front ++ back, ?_, inFront.append inBack⟩
    rw [flatMapM, atX, atXs]
    rfl

end Outcome

/-- The two build profiles of an integer operation: `dev` checks for overflow
and panics, `release` wraps. -/
inductive Profile where
  | dev
  | release
  deriving DecidableEq, Repr

namespace Profile

/-- What a `w`-bit operation with exact result `exact` returns when that result
is not representable and `wrapped` is the result modulo `2 ^ w`. -/
def overflow (p : Profile) (wrapped : Nat) : Outcome Nat :=
  match p with
  | dev => .fault
  | release => .ok wrapped

def add (p : Profile) (w a b : Nat) : Outcome Nat :=
  if a + b < 2 ^ w then .ok (a + b) else p.overflow ((a + b) % 2 ^ w)

def sub (p : Profile) (w a b : Nat) : Outcome Nat :=
  if b ≤ a then .ok (a - b) else p.overflow ((a + 2 ^ w - b) % 2 ^ w)

def mul (p : Profile) (w a b : Nat) : Outcome Nat :=
  if a * b < 2 ^ w then .ok (a * b) else p.overflow ((a * b) % 2 ^ w)

variable {p : Profile} {w a b : Nat}

theorem add_of_lt (bound : a + b < 2 ^ w) : p.add w a b = .ok (a + b) := by
  simp [add, bound]

theorem sub_of_le (bound : b ≤ a) : p.sub w a b = .ok (a - b) := by
  simp [sub, bound]

theorem mul_of_lt (bound : a * b < 2 ^ w) : p.mul w a b = .ok (a * b) := by
  simp [mul, bound]

theorem dev_add_eq_ok {c : Nat} : dev.add w a b = .ok c ↔ a + b < 2 ^ w ∧ c = a + b := by
  unfold add overflow
  by_cases fits : a + b < 2 ^ w
  · simp [fits, eq_comm]
  · simp [fits]

theorem dev_sub_eq_ok {c : Nat} : dev.sub w a b = .ok c ↔ b ≤ a ∧ c = a - b := by
  unfold sub overflow
  by_cases fits : b ≤ a
  · simp [fits, eq_comm]
  · simp [fits]

theorem dev_mul_eq_ok {c : Nat} : dev.mul w a b = .ok c ↔ a * b < 2 ^ w ∧ c = a * b := by
  unfold mul overflow
  by_cases fits : a * b < 2 ^ w
  · simp [fits, eq_comm]
  · simp [fits]

theorem release_add : ∃ c, release.add w a b = .ok c := by
  unfold add overflow
  split <;> exact ⟨_, rfl⟩

theorem release_sub : ∃ c, release.sub w a b = .ok c := by
  unfold sub overflow
  split <;> exact ⟨_, rfl⟩

end Profile

end Bitlens.Lib

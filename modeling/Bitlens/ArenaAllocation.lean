import Bitlens.Lib.Decode
import Bitlens.Lib.Run
import Mathlib.Algebra.Order.Ring.Nat
import Mathlib.Logic.Function.Basic
import Mathlib.Order.CompletePartialOrder
import Mathlib.Order.Interval.Set.Disjoint

namespace Bitlens.Lib

variable {α : Type} [LinearOrder α] {low high top : α} {x : α × α} {xs : List (α × α)}

/-- Pieces of what lies between two bounds, each from its first place to the one behind it,
of which no two share a place. -/
structure Apart (low high : α) (xs : List (α × α)) : Prop where
  within : ∀ x ∈ xs, low ≤ x.1 ∧ x.2 ≤ high
  disjoint : xs.Pairwise fun x y => Disjoint (Set.Ico x.1 x.2) (Set.Ico y.1 y.2)

namespace Apart

theorem nil : Apart low high [] :=
  ⟨nofun, .nil⟩

theorem mono (apart : Apart low high xs) (above : high ≤ top) : Apart low top xs :=
  ⟨fun x member => ⟨(apart.within x member).1, (apart.within x member).2.trans above⟩, apart.disjoint⟩

/-- A piece that begins behind all others shares no place with them. -/
theorem push (apart : Apart low high xs) (ordered : low ≤ high) (behind : high ≤ x.1) (above : high ≤ top)
    (inside : x.2 ≤ top) : Apart low top (x :: xs) where
  within := List.forall_mem_cons.mpr ⟨⟨ordered.trans behind, inside⟩, (apart.mono above).within⟩
  disjoint := by
    refine List.pairwise_cons.mpr ⟨fun y member => ?_, apart.disjoint⟩
    have before := ((apart.within y member).2.trans behind)
    rw [Set.Ico_disjoint_Ico]
    exact (min_le_right _ _).trans (before.trans (le_max_left _ _))

end Apart

end Bitlens.Lib

namespace Bitlens
open Lib

/-! The arena that callers share, in 64-bit arithmetic that wraps. -/

/-- The layout of a type, as `align_of` and `size_of` give it. -/
structure TypeLayout extends Layout where
  power : ∃ k < 64, align = 2 ^ k

/-- What the four functions do before and after the loop that they share. -/
structure Reservation where
  layout : TypeLayout
  count : Nat
  /-- The bytes that are added to the consumed ones. -/
  size : Nat
  /-- Where the object is, given the consumed bytes and the padding. -/
  location : Nat → Nat → Nat

def Reservation.tryAlloc (layout : TypeLayout) : Reservation where
  layout := layout
  count := 1
  size := layout.size
  location currentlyConsumed _ := currentlyConsumed

def Reservation.tryAllocArrayFillCopy (layout : TypeLayout) (count : Nat) : Reservation where
  layout := layout
  count := count
  size := layout.size * count % 2 ^ 64
  location currentlyConsumed padding := (padding + currentlyConsumed) % 2 ^ 64

/-- The size is that of a slice, so no product is computed. -/
def Reservation.tryAllocArrayCopy (layout : TypeLayout) (length : Nat) : Reservation where
  layout := layout
  count := length
  size := layout.size * length
  location currentlyConsumed padding := (padding + currentlyConsumed) % 2 ^ 64

def Reservation.tryAllocArrayUninit (layout : TypeLayout) (count : Nat) : Reservation where
  layout := layout
  count := count
  size := layout.size * count % 2 ^ 64
  location currentlyConsumed padding := (padding + currentlyConsumed) % 2 ^ 64

def Reservation.tryAllocArenaarray (layout : TypeLayout) (count : Nat) : Reservation :=
  .tryAllocArrayUninit layout count

inductive AllocCall where
  | tryAlloc (layout : TypeLayout)
  | tryAllocArrayFillCopy (layout : TypeLayout) (count : Nat)
  | tryAllocArrayCopy (layout : TypeLayout) (length : Nat)
  | tryAllocArenaarray (layout : TypeLayout) (count : Nat)

def AllocCall.reservation : AllocCall → Reservation
  | .tryAlloc layout => .tryAlloc layout
  | .tryAllocArrayFillCopy layout count => .tryAllocArrayFillCopy layout count
  | .tryAllocArrayCopy layout length => .tryAllocArrayCopy layout length
  | .tryAllocArenaarray layout count => .tryAllocArenaarray layout count

/-- The padding of the loop. -/
def paddingFrom (arena : Arena) (alignment currentlyConsumed : Nat) : Nat :=
  if alignment ≠ 0 then (alignment - (arena.data + currentlyConsumed) % 2 ^ 64 % alignment) % alignment else 0

/-- A call in its loop, with the consumed bytes that it has read. -/
structure Attempt where
  call : AllocCall
  currentlyConsumed : Nat

namespace Attempt

variable (arena : Arena) (a : Attempt)

def alignment : Nat :=
  a.call.reservation.layout.align

def padding : Nat :=
  paddingFrom arena a.alignment a.currentlyConsumed

/-- What is compared with the capacity, and stored. -/
def stop : Nat :=
  (a.currentlyConsumed + a.padding arena + a.call.reservation.size) % 2 ^ 64

/-- The address that is returned. -/
def start : Nat :=
  (arena.data + a.call.reservation.location a.currentlyConsumed (a.padding arena)) % 2 ^ 64

/-- The bytes of the objects at that address. -/
def bytes : Nat :=
  a.call.reservation.count * a.call.reservation.layout.size

end Attempt

/-- The counter, the calls in their loops, and the calls that have returned an address
since the last reset, with the consumed bytes that they replaced. -/
structure ArenaState where
  consumed : Nat
  attempts : Nat → Option Attempt
  allocations : List Attempt

/-- What a caller does next. A relaxed load may read an old value, and an exchange may
fail with one. -/
inductive ArenaEvent where
  | load (caller : Nat) (call : AllocCall) (currentlyConsumed : Nat)
  | exchange (caller : Nat)
  | exchangeFails (caller : Nat) (newCurrentlyConsumed : Nat)
  | panics (caller : Nat)

namespace ArenaState

def next (arena : Arena) (s : ArenaState) : ArenaEvent → Option ArenaState
  | .load caller call currentlyConsumed =>
    if (s.attempts caller).isNone then
      some { s with attempts := Function.update s.attempts caller (some ⟨call, currentlyConsumed⟩) }
    else none
  | .exchange caller =>
    match s.attempts caller with
    | some a =>
      if a.stop arena ≤ arena.capacity ∧ a.currentlyConsumed = s.consumed then
        some ⟨a.stop arena, Function.update s.attempts caller none, a :: s.allocations⟩
      else none
    | none => none
  | .exchangeFails caller newCurrentlyConsumed =>
    match s.attempts caller with
    | some a =>
      if a.stop arena ≤ arena.capacity then
        some { s with attempts := Function.update s.attempts caller (some ⟨a.call, newCurrentlyConsumed⟩) }
      else none
    | none => none
  | .panics caller =>
    match s.attempts caller with
    | some a =>
      if a.stop arena ≤ arena.capacity then none
      else some { s with attempts := Function.update s.attempts caller none }
    | none => none

def Step (arena : Arena) (s : ArenaState) (event : ArenaEvent) (t : ArenaState) : Prop :=
  s.next arena event = some t

/-- What `reset` leaves: calls may still be in their loops. -/
structure Reset (s : ArenaState) : Prop where
  consumed : s.consumed = 0
  allocations : s.allocations = []

/-- Every returned address is aligned, its bytes are in the arena, and no two share one. -/
structure Sound (arena : Arena) (s : ArenaState) : Prop where
  aligned : ∀ a ∈ s.allocations, a.alignment ∣ a.start arena
  inside : ∀ a ∈ s.allocations, arena.data ≤ a.start arena ∧ a.start arena + a.bytes ≤ arena.data + arena.capacity
  disjoint : s.allocations.Pairwise fun a b =>
    Disjoint (Set.Ico (a.start arena) (a.start arena + a.bytes)) (Set.Ico (b.start arena) (b.start arena + b.bytes))

end ArenaState

/-- A single object needs an aligned address already, and what is behind the bytes of an
array can be counted. -/
def Attempt.Regular (arena : Arena) (a : Attempt) : Prop :=
  (match a.call with
    | .tryAlloc layout => layout.align ∣ arena.data + a.currentlyConsumed
    | _ => True) ∧
  a.currentlyConsumed + a.padding arena + a.bytes < 2 ^ 64

/-- The condition on an exchange that succeeds. -/
def ArenaState.Regular (arena : Arena) (s : ArenaState) : ArenaEvent → Prop
  | .exchange caller => ∀ a, s.attempts caller = some a → a.Regular arena
  | _ => True

variable {arena : Arena} {a : Attempt} {s t : ArenaState} {event : ArenaEvent} {events : List ArenaEvent}

/-! The padding. -/

theorem paddingFrom_eq {alignment consumed : Nat} (power : ∃ k < 64, alignment = 2 ^ k) :
    paddingFrom arena alignment consumed = arena.padding alignment consumed := by
  obtain ⟨k, small, rfl⟩ := power
  have divides : 2 ^ k ∣ 2 ^ 64 := Nat.pow_dvd_pow 2 small.le
  rw [paddingFrom, if_pos (Nat.two_pow_pos k).ne', Nat.mod_mod_of_dvd _ divides]
  rfl

/-- Behind the padding the address is a multiple of the alignment. -/
theorem dvd_add_padding {alignment consumed : Nat} (positive : 0 < alignment) :
    alignment ∣ arena.data + consumed + arena.padding alignment consumed := by
  unfold Arena.padding
  have split := Nat.mod_add_div (arena.data + consumed) alignment
  have below := Nat.mod_lt (arena.data + consumed) positive
  rcases Nat.eq_zero_or_pos ((arena.data + consumed) % alignment) with zero | rest
  · rw [zero, Nat.sub_zero, Nat.mod_self, Nat.add_zero]
    exact Nat.dvd_of_mod_eq_zero zero
  · rw [Nat.mod_eq_of_lt (Nat.sub_lt positive rest)]
    refine ⟨(arena.data + consumed) / alignment + 1, ?_⟩
    rw [Nat.mul_add, Nat.mul_one]
    omega

theorem padding_of_dvd {alignment consumed : Nat} (aligned : alignment ∣ arena.data + consumed) :
    arena.padding alignment consumed = 0 := by
  rw [Arena.padding, Nat.mod_eq_zero_of_dvd aligned, Nat.sub_zero, Nat.mod_self]

theorem padding_lt {alignment consumed : Nat} (positive : 0 < alignment) : arena.padding alignment consumed < alignment :=
  Nat.mod_lt _ positive

/-- The padding does not reach beyond the last address. -/
theorem add_padding_le {alignment consumed : Nat} (power : ∃ k < 64, alignment = 2 ^ k) (inside : consumed ≤ arena.capacity) :
    arena.data + consumed + arena.padding alignment consumed ≤ 2 ^ 64 := by
  obtain ⟨k, small, rfl⟩ := power
  have divides : 2 ^ k ∣ 2 ^ 64 := Nat.pow_dvd_pow 2 small.le
  have below := @padding_lt arena (2 ^ k) consumed (Nat.two_pow_pos k)
  have bound := arena.inBounds
  by_contra beyond
  have gap := Nat.le_of_dvd (by omega) (Nat.dvd_sub (@dvd_add_padding arena (2 ^ k) consumed (Nat.two_pow_pos k)) divides)
  omega

/-! Attempts. -/

namespace Attempt

theorem padding_eq (a : Attempt) : a.padding arena = arena.padding a.alignment a.currentlyConsumed :=
  paddingFrom_eq a.call.reservation.layout.power

theorem alignment_pos (a : Attempt) : 0 < a.alignment := by
  obtain ⟨k, _, power⟩ := a.call.reservation.layout.power
  rw [alignment, power]
  exact Nat.two_pow_pos k

/-- The size is that of the objects unless a product wraps. -/
theorem size_eq (small : a.bytes < 2 ^ 64) : a.call.reservation.size = a.bytes := by
  unfold bytes at small ⊢
  rw [Nat.mul_comm] at small ⊢
  obtain ⟨call, currentlyConsumed⟩ := a
  cases call with
  | tryAlloc layout => exact (Nat.mul_one _).symm
  | tryAllocArrayFillCopy layout count => exact Nat.mod_eq_of_lt small
  | tryAllocArrayCopy layout length => rfl
  | tryAllocArenaarray layout count => exact Nat.mod_eq_of_lt small

/-- An object is put behind the padding, and a single one is where there is none. -/
theorem location_eq (regular : a.Regular arena) :
    a.call.reservation.location a.currentlyConsumed (a.padding arena) = a.currentlyConsumed + a.padding arena := by
  obtain ⟨single, exact_⟩ := regular
  have array : (a.padding arena + a.currentlyConsumed) % 2 ^ 64 = a.currentlyConsumed + a.padding arena := by
    rw [Nat.mod_eq_of_lt (by omega), Nat.add_comm]
  have padded := @padding_eq arena a
  obtain ⟨call, currentlyConsumed⟩ := a
  cases call with
  | tryAlloc layout =>
    have none : Attempt.padding arena ⟨.tryAlloc layout, currentlyConsumed⟩ = 0 := padded.trans (padding_of_dvd single)
    rw [none]
    rfl
  | tryAllocArrayFillCopy layout count => exact array
  | tryAllocArrayCopy layout length => exact array
  | tryAllocArenaarray layout count => exact array

/-- A regular attempt reserves the objects that it returns, at an aligned address. -/
theorem Regular.fits (regular : a.Regular arena) (room : a.stop arena ≤ arena.capacity) :
    a.start arena = arena.data + a.currentlyConsumed + a.padding arena ∧
      a.stop arena = a.currentlyConsumed + a.padding arena + a.bytes ∧ a.alignment ∣ a.start arena := by
  have exact_ := regular.2
  have bound := arena.inBounds
  have stop : a.stop arena = a.currentlyConsumed + a.padding arena + a.bytes := by
    rw [Attempt.stop, size_eq (by omega), Nat.mod_eq_of_lt exact_]
  have start : a.start arena = arena.data + a.currentlyConsumed + a.padding arena := by
    rw [Attempt.start, location_eq regular, Nat.mod_eq_of_lt (by omega), Nat.add_assoc]
  refine ⟨start, stop, ?_⟩
  rw [start, padding_eq]
  exact dvd_add_padding a.alignment_pos

/-- Where the objects are aligned and in the arena, the attempt is regular. -/
theorem regular_of_inside (placed : 0 < arena.data) (counted : a.currentlyConsumed ≤ arena.capacity)
    (aligned : a.alignment ∣ a.start arena)
    (inside : arena.data ≤ a.start arena ∧ a.start arena + a.bytes ≤ arena.data + arena.capacity) : a.Regular arena := by
  have bound := arena.inBounds
  have last := add_padding_le a.call.reservation.layout.power counted
  rw [← alignment, ← padding_eq] at last
  have array : a.start arena = (arena.data + (a.padding arena + a.currentlyConsumed) % 2 ^ 64) % 2 ^ 64 →
      a.currentlyConsumed + a.padding arena + a.bytes < 2 ^ 64 := by
    intro start
    -- the address behind the padding is at most `2 ^ 64`, and that would be zero
    rw [Nat.add_mod_mod] at start
    rcases Nat.lt_or_eq_of_le last with before | beyond
    · rw [Nat.mod_eq_of_lt (by omega)] at start
      omega
    · have whole : arena.data + (a.padding arena + a.currentlyConsumed) = 2 ^ 64 := by omega
      rw [whole, Nat.mod_self] at start
      omega
  have padded := @padding_eq arena a
  obtain ⟨call, currentlyConsumed⟩ := a
  cases call with
  | tryAlloc layout =>
    have start : Attempt.start arena ⟨.tryAlloc layout, currentlyConsumed⟩ = arena.data + currentlyConsumed :=
      Nat.mod_eq_of_lt (show arena.data + currentlyConsumed < 2 ^ 64 by dsimp only at counted; omega)
    rw [start] at aligned inside
    have none : Attempt.padding arena ⟨.tryAlloc layout, currentlyConsumed⟩ = 0 := padded.trans (padding_of_dvd aligned)
    refine ⟨aligned, ?_⟩
    rw [none]
    dsimp only
    omega
  | tryAllocArrayFillCopy layout count => exact ⟨trivial, array rfl⟩
  | tryAllocArrayCopy layout length => exact ⟨trivial, array rfl⟩
  | tryAllocArenaarray layout count => exact ⟨trivial, array rfl⟩

end Attempt

/-! Runs. -/

namespace ArenaState

/-- Only an exchange that succeeds changes the counter, and it returns an address. -/
theorem step_cases (step : Step arena s event t) :
    (∃ caller a, event = .exchange caller ∧ s.attempts caller = some a ∧ a.stop arena ≤ arena.capacity ∧
        a.currentlyConsumed = s.consumed ∧ t.consumed = a.stop arena ∧ t.allocations = a :: s.allocations) ∨
      (∀ caller, event ≠ .exchange caller) ∧ t.consumed = s.consumed ∧ t.allocations = s.allocations := by
  unfold Step next at step
  cases event with
  | load caller call currentlyConsumed =>
    obtain ⟨_, same⟩ := Option.ite_none_right_eq_some.mp step
    cases same
    exact .inr ⟨nofun, rfl, rfl⟩
  | exchange caller =>
    dsimp only at step
    cases found : s.attempts caller with
    | none =>
      rw [found] at step
      cases step
    | some a =>
      rw [found] at step
      obtain ⟨⟨room, equal⟩, same⟩ := Option.ite_none_right_eq_some.mp step
      cases same
      exact .inl ⟨caller, a, rfl, found, room, equal, rfl, rfl⟩
  | exchangeFails caller newCurrentlyConsumed =>
    dsimp only at step
    cases found : s.attempts caller with
    | none =>
      rw [found] at step
      cases step
    | some a =>
      rw [found] at step
      obtain ⟨_, same⟩ := Option.ite_none_right_eq_some.mp step
      cases same
      exact .inr ⟨nofun, rfl, rfl⟩
  | panics caller =>
    dsimp only at step
    cases found : s.attempts caller with
    | none =>
      rw [found] at step
      cases step
    | some a =>
      rw [found] at step
      obtain ⟨_, same⟩ := Option.ite_none_left_eq_some.mp step
      cases same
      exact .inr ⟨nofun, rfl, rfl⟩

/-- The counter never exceeds the capacity. -/
theorem consumed_le (run : Run (Step arena) s events t) (reset : s.Reset) : t.consumed ≤ arena.capacity := by
  have start : s.consumed ≤ arena.capacity := reset.consumed.trans_le (Nat.zero_le _)
  refine run.invariant (P := fun s => s.consumed ≤ arena.capacity) start fun s event t within step => ?_
  rcases step_cases step with ⟨_, a, _, _, room, _, counter, _⟩ | ⟨_, counter, _⟩
  · rw [counter]
    exact room
  · rw [counter]
    exact within

/-- The returned addresses are aligned, and their bytes are apart below the counter. -/
structure Packed (arena : Arena) (s : ArenaState) : Prop where
  aligned : ∀ a ∈ s.allocations, a.alignment ∣ a.start arena
  apart : Apart arena.data (arena.data + s.consumed) (s.allocations.map fun a => (a.start arena, a.start arena + a.bytes))

theorem Packed.sound (packed : s.Packed arena) (within : s.consumed ≤ arena.capacity) : s.Sound arena where
  aligned := packed.aligned
  inside a member := by
    obtain ⟨above, below⟩ := packed.apart.within _ (List.mem_map_of_mem member)
    exact ⟨above, below.trans (Nat.add_le_add_left within _)⟩
  disjoint := by
    have apart := packed.apart.disjoint
    rwa [List.pairwise_map] at apart

/-- A regular exchange returns bytes behind all others. -/
theorem Packed.step (packed : s.Packed arena) (regular : s.Regular arena event) (step : Step arena s event t) :
    t.Packed arena := by
  rcases step_cases step with ⟨caller, a, rfl, found, room, equal, counter, grown⟩ | ⟨_, counter, same⟩
  · obtain ⟨start, stop, aligned⟩ := (regular a found).fits room
    refine ⟨?_, ?_⟩
    · rw [grown]
      exact List.forall_mem_cons.mpr ⟨aligned, packed.aligned⟩
    · rw [grown, counter, List.map_cons]
      refine packed.apart.push (Nat.le_add_right _ _) ?_ ?_ ?_
      · dsimp only
        omega
      · omega
      · dsimp only
        omega
  · refine ⟨?_, ?_⟩
    · rw [same]
      exact packed.aligned
    · rw [same, counter]
      exact packed.apart

theorem Reset.packed (reset : s.Reset) : s.Packed arena := by
  refine ⟨?_, ?_⟩
  · rw [reset.allocations]
    exact nofun
  · rw [reset.allocations]
    exact .nil

/-- An address that is not aligned, or whose bytes are not all in the arena. -/
def Spoiled (arena : Arena) (s : ArenaState) : Prop :=
  ∃ a ∈ s.allocations, ¬ (a.alignment ∣ a.start arena ∧ arena.data ≤ a.start arena ∧
    a.start arena + a.bytes ≤ arena.data + arena.capacity)

/-- An address stays returned until the next reset. -/
theorem Spoiled.step (spoiled : s.Spoiled arena) (step : Step arena s event t) : t.Spoiled arena := by
  obtain ⟨a, member, wrong⟩ := spoiled
  rcases step_cases step with ⟨_, b, _, _, _, _, _, grown⟩ | ⟨_, _, same⟩
  · exact ⟨a, by rw [grown]; exact List.mem_cons_of_mem _ member, wrong⟩
  · exact ⟨a, by rw [same]; exact member, wrong⟩

theorem spoiled_of_irregular (placed : 0 < arena.data) (within : s.consumed ≤ arena.capacity)
    (irregular : ¬ s.Regular arena event) (step : Step arena s event t) : t.Spoiled arena := by
  rcases step_cases step with ⟨caller, a, rfl, found, _, equal, _, grown⟩ | ⟨other, _, _⟩
  · refine ⟨a, by rw [grown]; exact List.mem_cons_self, fun good => irregular fun b again => ?_⟩
    cases found.symm.trans again
    exact Attempt.regular_of_inside placed (equal.trans_le within) good.1 good.2
  · refine (irregular ?_).elim
    cases event with
    | exchange caller => exact (other caller rfl).elim
    | load caller call currentlyConsumed => trivial
    | exchangeFails caller newCurrentlyConsumed => trivial
    | panics caller => trivial

/-- The addresses that are returned after a reset are right exactly if each single object
was put at an aligned place and no size of an array wrapped. -/
theorem sound_iff (placed : 0 < arena.data) (reset : s.Reset) (run : Run (Step arena) s events t) :
    t.Sound arena ↔ Run (Guarded (Regular arena) (Step arena)) s events t := by
  constructor
  · intro sound
    have counted := run.with_invariant fun before => consumed_le before reset
    have split : Run (Guarded (Regular arena) fun s event t => s.consumed ≤ arena.capacity ∧ Step arena s event t) s events t ∨
        t.Spoiled arena :=
      counted.guarded_or (fun _ _ _ step irregular => spoiled_of_irregular placed step.1 irregular step.2)
        fun _ _ _ step spoiled => spoiled.step step.2
    rcases split with regular | ⟨a, member, wrong⟩
    · exact regular.mono fun _ _ _ step => ⟨step.1, step.2.2⟩
    · exact (wrong ⟨sound.aligned a member, sound.inside a member⟩).elim
  · intro regular
    have packed := regular.invariant reset.packed fun _ _ _ packed step => packed.step step.1 step.2
    exact packed.sound (consumed_le run reset)

theorem exchange_step {caller : Nat} (found : s.attempts caller = some a) (room : a.stop arena ≤ arena.capacity)
    (current : a.currentlyConsumed = s.consumed) :
    Step arena s (.exchange caller) ⟨a.stop arena, Function.update s.attempts caller none, a :: s.allocations⟩ := by
  rw [Step, next, found]
  exact if_pos ⟨room, current⟩

/-- A caller that is alone with the arena stores what `reserve` computes with checked sums. -/
theorem run_of_reserve {caller stop : Nat} (idle : s.attempts caller = none) (current : a.currentlyConsumed = s.consumed)
    (reserved : arena.reserve a.alignment a.bytes a.currentlyConsumed = .ok stop) :
    ∃ t, Run (Step arena) s [.load caller a.call a.currentlyConsumed, .exchange caller] t ∧ t.consumed = stop := by
  have bound := arena.inBounds
  have fits : a.currentlyConsumed + a.padding arena + a.bytes ≤ arena.capacity := by
    rw [a.padding_eq]
    by_contra unfit
    cases (Arena.reserve_of_not_le unfit).symm.trans reserved
  have sum : a.stop arena = a.currentlyConsumed + a.padding arena + a.bytes := by
    rw [Attempt.stop, Attempt.size_eq (by omega), Nat.mod_eq_of_lt (by omega)]
  have same : stop = a.stop arena := by
    rw [sum]
    rw [a.padding_eq] at fits ⊢
    exact (Outcome.ok.inj ((Arena.reserve_of_le fits).symm.trans reserved)).symm
  have loads : Step arena s (.load caller a.call a.currentlyConsumed)
      { s with attempts := Function.update s.attempts caller (some a) } := by
    rw [Step, next, idle]
    rfl
  exact ⟨_, .snoc (.single loads) (exchange_step (Function.update_self _ _ _) (sum.trans_le fits) current), same.symm⟩

/-! A byte, and a word behind it. -/

def byteLayout : TypeLayout := ⟨⟨1, 1⟩, 0, by decide, rfl⟩

def wordLayout : TypeLayout := ⟨⟨8, 8⟩, 3, by decide, rfl⟩

def pageArena : Arena := ⟨4096, 4096, by decide⟩

def resetState : ArenaState := ⟨0, fun _ => none, []⟩

/-- Two callers that have both read the counter at its start. -/
def secondWord (call : AllocCall) : List ArenaEvent :=
  [.load 0 (.tryAllocArrayFillCopy byteLayout 1) 0, .load 1 call 0, .exchange 0, .exchangeFails 1 1, .exchange 1]

theorem secondWord_run (call : AllocCall) (possible : (runFn (next pageArena) resetState (secondWord call)).isSome) :
    Run (Step pageArena) resetState (secondWord call) (after (next pageArena) resetState (secondWord call)) :=
  .of_after (fun _ _ _ taken => taken) possible

/-- An array of one word is put behind seven bytes of padding. -/
theorem sound_iff_array :
    (after (next pageArena) resetState (secondWord (.tryAllocArrayCopy wordLayout 1))).Sound pageArena ↔
      Run (Guarded (Regular pageArena) (Step pageArena)) resetState (secondWord (.tryAllocArrayCopy wordLayout 1))
        (after (next pageArena) resetState (secondWord (.tryAllocArrayCopy wordLayout 1))) :=
  sound_iff (by decide) ⟨rfl, rfl⟩ (secondWord_run _ rfl)

/-- A single word is put before the padding. -/
theorem sound_fails :
    ¬ ∀ (arena : Arena) (s t : ArenaState) (events : List ArenaEvent), 0 < arena.data → s.Reset →
      Run (Step arena) s events t → t.Sound arena := by
  intro claim
  have sound := claim pageArena resetState _ _ (by decide) ⟨rfl, rfl⟩ (secondWord_run (.tryAlloc wordLayout) rfl)
  have aligned : 8 ∣ 4097 := sound.aligned ⟨.tryAlloc wordLayout, 1⟩ List.mem_cons_self
  exact absurd aligned (by decide)

end ArenaState

end Bitlens

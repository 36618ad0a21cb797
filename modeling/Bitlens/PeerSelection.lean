import Bitlens.OnlineRing

namespace Bitlens
open Lib

/-- `services & requirement == requirement`. -/
def Covers (services requirement : UInt64) : Prop :=
  services &&& requirement = requirement

instance (services requirement : UInt64) : Decidable (Covers services requirement) :=
  inferInstanceAs (Decidable (_ = _))

theorem Covers.refl (services : UInt64) : Covers services services :=
  UInt64.and_self

theorem Covers.trans {a b c : UInt64} (first : Covers a b) (second : Covers b c) : Covers a c := by
  calc a &&& c = a &&& (b &&& c) := by rw [second]
    _ = (a &&& b) &&& c := (UInt64.and_assoc a b c).symm
    _ = c := by rw [first, second]

theorem covers_zero (services : UInt64) : Covers services 0 :=
  UInt64.and_zero

namespace OnlineList

/-- A peer that serves what is asked for; without a requirement every peer does. -/
def Serves (services : Option UInt64) (e : AddressPortNetworkWithServicesAndTime) : Prop :=
  ∀ requirement ∈ services, Covers e.services requirement

/-- What `random` should do: a peer of the window that serves, where there is one. -/
def Selects (l : OnlineList) (index : Nat) (services : Option UInt64) : Prop :=
  ∃ result, l.random index services = .ok result ∧
    (∀ apn ∈ result, ∃ e ∈ l.window, e.apn = apn ∧ Serves services e) ∧
    (result = none ↔ ∀ e ∈ l.window, ¬ Serves services e)

/-- The slots that `random` looks at, from the drawn index on as if the window began at
slot zero and filled the buffer. -/
def scanned (l : OnlineList) (index : Nat) : List AddressPortNetworkWithServicesAndTime :=
  ring l.peers index l.length

/-- Each of these slots has no more services than an earlier one or than the window's entry for
its peer, and no entry of the window has services that none of them has. -/
def Offers (l : OnlineList) (index : Nat) : Prop :=
  (∀ front slot back, l.scanned index = front ++ slot :: back →
    (∃ earlier ∈ front, Covers earlier.services slot.services) ∨
      ∃ e ∈ l.window, e.apn = slot.apn ∧ Covers e.services slot.services) ∧
  ∀ e ∈ l.window, ∃ slot ∈ l.scanned index, Covers slot.services e.services

variable {l : OnlineList} {index : Nat} {requirement : UInt64}

theorem randomLoop_eq {n : Nat} (fits : n ≤ l.peers.length) :
    l.randomLoop requirement (List.range' index n) =
      .ok (((ring l.peers index n).find? fun e => Covers e.services requirement).map (·.apn)) := by
  induction n generalizing index with
  | zero => simp [randomLoop]
  | succ n ih =>
    obtain ⟨item, found, window⟩ := ring_succ index fits
    rw [List.range'_succ, randomLoop, found, window, Outcome.unwrap_some, Outcome.ok_bind]
    by_cases covers : item.services &&& requirement = requirement
    · simp [Covers, covers]
    · rw [if_neg covers, ih (by omega)]
      simp [Covers, covers]

/-- Without a requirement any slot will do, as for the requirement of no service. -/
theorem random_eq (bounded : l.Bounded) (drawn : l.length ≠ 0 → index < l.length) (services : Option UInt64) :
    l.random index services =
      .ok (((l.scanned index).find? fun e => Covers e.services (services.getD 0)).map (·.apn)) := by
  have fits := bounded.length_lt
  by_cases empty : l.length = 0
  · simp [random, scanned, empty]
  · unfold random scanned
    rw [if_neg empty]
    cases services with
    | some requirement => exact randomLoop_eq fits.le
    | none =>
      obtain ⟨n, length⟩ := Nat.exists_eq_succ_of_ne_zero empty
      have some : n < l.peers.length := by omega
      obtain ⟨item, found, window⟩ := ring_succ index some
      rw [Nat.mod_eq_of_lt ((drawn empty).trans fits)] at found
      simp [length, window, found, covers_zero]

theorem serves_iff_covers {services : Option UInt64} {e : AddressPortNetworkWithServicesAndTime} :
    Serves services e ↔ Covers e.services (services.getD 0) := by
  cases services with
  | none => simp [Serves, covers_zero]
  | some requirement => simp [Serves]

/-- The first of the slots with what is asked for stands for an entry of the window that has it. -/
theorem Offers.first (offers : Offers l index) {slot : AddressPortNetworkWithServicesAndTime}
    (first : (l.scanned index).find? (fun e => Covers e.services requirement) = some slot) :
    ∃ e ∈ l.window, e.apn = slot.apn ∧ Covers e.services requirement := by
  obtain ⟨covers, front, back, split, before⟩ := List.find?_eq_some_iff_append.mp first
  have has := of_decide_eq_true covers
  rcases offers.1 front slot back split with ⟨earlier, member, more⟩ | ⟨e, member, atApn, more⟩
  · have unfit := before earlier member
    simp only [Bool.not_eq_true', decide_eq_false_iff_not] at unfit
    exact absurd (more.trans has) unfit
  · exact ⟨e, member, atApn, more.trans has⟩

/-- For a drawn index `random` does what it should for every requirement exactly when the slots it
looks at offer what the window does. -/
theorem random_selects_iff (bounded : l.Bounded) (drawn : l.length ≠ 0 → index < l.length) :
    (∀ services, Selects l index services) ↔ Offers l index := by
  constructor
  · intro selects
    refine ⟨fun front slot back split => ?_, fun e member => ?_⟩
    · -- asked for the services of `slot`, `random` returns it or an earlier slot that has them
      obtain ⟨result, returned, stored, _⟩ := selects (some slot.services)
      rw [random_eq bounded drawn, Outcome.ok.injEq] at returned
      by_contra neither
      rw [not_or] at neither
      have first : (l.scanned index).find? (fun e => Covers e.services slot.services) = some slot := by
        rw [split, List.find?_append, List.find?_eq_none.mpr, Option.none_or, List.find?_cons_of_pos]
        · simpa using Covers.refl slot.services
        · intro earlier member covers
          exact neither.1 ⟨earlier, member, by simpa using covers⟩
      rw [Option.getD_some, first] at returned
      obtain ⟨e, member, apn, serves⟩ := stored slot.apn (by simp [← returned])
      exact neither.2 ⟨e, member, apn, serves _ rfl⟩
    · obtain ⟨result, returned, _, nothing⟩ := selects (some e.services)
      rw [random_eq bounded drawn, Outcome.ok.injEq] at returned
      by_contra absent
      have none : (l.scanned index).find? (fun slot => Covers slot.services e.services) = none :=
        List.find?_eq_none.mpr fun slot inside covers => absent ⟨slot, inside, by simpa using covers⟩
      rw [Option.getD_some, none] at returned
      exact nothing.mp returned.symm e member (serves_iff_covers.mpr (Covers.refl e.services))
  · intro offers services
    refine ⟨_, random_eq bounded drawn services, ?_, ?_⟩
    · intro apn returned
      obtain ⟨slot, first, same⟩ := Option.map_eq_some_iff.mp returned
      obtain ⟨e, member, atApn, covers⟩ := offers.first first
      exact ⟨e, member, atApn.trans same, serves_iff_covers.mpr covers⟩
    · rw [Option.map_eq_none_iff]
      constructor
      · intro none e member serves
        obtain ⟨slot, inside, more⟩ := offers.2 e member
        exact List.find?_eq_none.mp none slot inside (decide_eq_true (more.trans (serves_iff_covers.mp serves)))
      · intro none
        cases first : (l.scanned index).find? fun e => Covers e.services (services.getD 0) with
        | none => rfl
        | some slot =>
          obtain ⟨e, member, _, covers⟩ := offers.first first
          exact absurd (serves_iff_covers.mpr covers) (none e member)

theorem random_selects_iff_first : withFirst.length = 1 ∧ ∀ services, Selects withFirst 0 services := by
  have bounded : withFirst.Bounded := ⟨by decide, by decide⟩
  have same : withFirst.scanned 0 = withFirst.window := rfl
  refine ⟨by decide, (random_selects_iff bounded fun _ => by decide).mpr ⟨fun front slot back split => Or.inr ?_, ?_⟩⟩
  · have inside : slot ∈ withFirst.window := by
      rw [← same, split]
      exact List.mem_append_right _ List.mem_cons_self
    exact ⟨slot, inside, rfl, Covers.refl _⟩
  · exact fun e member => ⟨e, member, Covers.refl _⟩

/-- The list after `firstPeer` has expired. -/
def withSecond : OnlineList :=
  { withBoth 1100 {secondPeer} with start := 1 }

/-- With the start moved on, the drawn index is a slot outside the window. -/
theorem random_selects_fails : withSecond.RingInvariant ∧ 0 < withSecond.length ∧ ¬ Selects withSecond 0 none := by
  have window : withSecond.window = [⟨secondPeer, 1, 1100⟩] := rfl
  refine ⟨⟨⟨by decide, by decide⟩, ?_, ?_, ?_⟩, by decide, ?_⟩
  · simp [window]
  · rw [window]
    rfl
  · simp [window]
  · rintro ⟨result, returned, stored, _⟩
    have first : withSecond.random 0 none = .ok (some firstPeer) := rfl
    rw [first, Outcome.ok.injEq] at returned
    obtain ⟨e, member, apn, _⟩ := stored firstPeer (by simp [← returned])
    rw [window, List.mem_singleton] at member
    rw [member] at apn
    exact absurd apn (by decide)

end OnlineList

end Bitlens

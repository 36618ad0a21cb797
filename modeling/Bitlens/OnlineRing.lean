import Bitlens.OnlineList
import Bitlens.Lib.FrontDrop
import Bitlens.Lib.Run

namespace Bitlens
open Lib

namespace OnlineList

/-- The peers between `start` and `stop` are distinct, the keys of the map, and ordered
by the time they were seen. -/
structure RingInvariant (l : OnlineList) : Prop extends l.Bounded where
  distinct : (l.window.map (·.apn)).Nodup
  known_eq : l.known = (l.window.map (·.apn)).toFinset
  ordered : l.window.Pairwise fun e f => e.lastOnline ≤ f.lastOnline

/-- No entry is older than the threshold. -/
def Fresh (l : OnlineList) (now : SystemTime) : Prop :=
  ∀ e ∈ l.window, now - l.threshold ≤ e.lastOnline

/-- A call of `peer_online`, with the clock for `last_online`. -/
structure Call where
  peer : AddressPortNetwork
  services : UInt64
  now : SystemTime

/-- The list and the clock at the last call. -/
structure Clocked where
  list : OnlineList
  clock : SystemTime

/-- A call at a clock that has not gone back. -/
def Called (capacity : Nat → Nat) (s : Clocked) (call : Call) (t : Clocked) : Prop :=
  s.clock ≤ call.now ∧ t.clock = call.now ∧
    s.list.peerOnline capacity call.now call.peer call.services call.now = .ok t.list

/-- The property of a state after a call. -/
def Sound (s : Clocked) : Prop :=
  s.list.RingInvariant ∧ s.list.Fresh s.clock

/-- The window is empty, or one of its entries or the slot behind them has not expired. -/
def Keeps (s : Clocked) (call : Call) : Prop :=
  s.list.window = [] ∨
    ∃ e ∈ ring s.list.peers s.list.start (s.list.length + 1), call.now - s.list.threshold ≤ e.lastOnline

variable {l l' : OnlineList} {capacity : Nat → Nat} {rn : SystemTime} {e : AddressPortNetworkWithServicesAndTime}

theorem expired_iff : l.expired rn e = true ↔ e.lastOnline < rn - l.threshold := by
  simp [expired]

theorem grow_window (inside : l.stop ≤ l.peers.length) : (l.grow capacity).window = l.peers.rotate l.stop := by
  have length : (l.grow capacity).length = l.peers.length := by simp [OnlineList.length, grow]
  have unrolled : (l.grow capacity).peers = l.peers.rotate l.stop ++
      List.replicate (capacity (l.peers.length * 2) - l.peers.length) .default := by
    rw [List.rotate_eq_drop_append_take inside]
    rfl
  rw [window, length, unrolled]
  exact (ring_unrolled (Nat.le_refl _) _).trans ring_length

/-- What an insertion does to the window, in a full buffer too. -/
theorem Bounded.insert (bounded : l.Bounded) (allocates : ∀ n, n ≤ capacity n)
    (e : AddressPortNetworkWithServicesAndTime) :
    ∃ l', l.insert capacity e = .ok l' ∧ l'.Bounded ∧ l'.window = l.window ++ [e] ∧
      l'.known = Insert.insert e.apn l.known ∧ l'.threshold = l.threshold := by
  have start := bounded.start_lt
  have room := bounded.length_lt
  have written := ring_set l.start room e
  rw [bounded.stop_eq] at written
  have next : (l.start + (l.length + 1)) % l.peers.length = (l.stop + 1) % l.peers.length := by
    rw [← bounded.stop_eq, Nat.mod_add_mod, Nat.add_assoc]
  rw [OnlineList.insert, if_pos bounded.stop_lt]
  by_cases full : (l.write e).stop = (l.write e).start
  · -- the window is the whole buffer
    have whole : l.length + 1 = l.peers.length := by
      simp only [write] at full
      rw [full, wrapped start room] at next
      split at next <;> omega
    have allocated := allocates (l.peers.length * 2)
    rw [if_pos full]
    refine ⟨_, rfl, ⟨?_, ?_⟩, ?_, rfl, rfl⟩
    · simp [grow, write]
      omega
    · simp [grow, write]
      omega
    · have length : (l.write e).peers.length = l.length + 1 := by rw [whole]; exact List.length_set
      rw [grow_window (by rw [full, length]; simp [write]; omega), full, ← ring_length, length]
      exact written
  · have short : l.length + 1 < l.peers.length := by
      refine lt_of_le_of_ne room fun whole => full ?_
      simp only [write]
      rw [← next, whole, Nat.add_mod_right, Nat.mod_eq_of_lt start]
    have after : (l.write e).Bounded :=
      ⟨by simpa [write] using start, by simpa [write] using Nat.mod_lt _ (Nat.zero_lt_of_lt start)⟩
    rw [if_neg full]
    refine ⟨_, rfl, after, ?_, rfl, rfl⟩
    rw [window, after.length_eq (by simpa [write] using short) (by simpa [write] using next)]
    exact written

theorem Bounded.forget (bounded : l.Bounded) {dropped : List AddressPortNetworkWithServicesAndTime}
    (inside : dropped.length ≤ l.length) :
    (l.forget dropped).Bounded ∧ (l.forget dropped).window = l.window.drop dropped.length := by
  have start := bounded.start_lt
  have short := bounded.length_lt
  have after : (l.forget dropped).Bounded := ⟨Nat.mod_lt _ (Nat.zero_lt_of_lt start), bounded.stop_lt⟩
  refine ⟨after, ?_⟩
  have length : (l.forget dropped).length = l.length - dropped.length := by
    refine after.length_eq ?_ ?_
    · simp only [OnlineList.forget]
      omega
    · simp only [OnlineList.forget, Nat.mod_add_mod]
      rw [Nat.add_assoc, Nat.add_sub_cancel' inside, bounded.stop_eq]
  rw [window, length, window, ← ring_drop short.le inside]
  exact ring_mod

/-- `trim` that ends inside the window or at its end: what has not expired stays. -/
theorem RingInvariant.forget (ring : l.RingInvariant) (inside : (l.stale rn).length ≤ l.length) :
    (l.forget (l.stale rn)).RingInvariant ∧
      (l.forget (l.stale rn)).window = l.window.filter fun e => !l.expired rn e := by
  obtain ⟨bounded, window⟩ := ring.toBounded.forget inside
  have front : l.stale rn = l.window.takeWhile (l.expired rn) := by
    rw [stale, ← ring_append l.peers l.start l.length] at inside ⊢
    exact takeWhile_append_of_le (by rwa [length_ring ring.length_lt.le])
  have rest : l.window.drop (l.stale rn).length = l.window.dropWhile (l.expired rn) := by
    rw [front, drop_length_takeWhile]
  have split : l.stale rn ++ l.window.drop (l.stale rn).length = l.window := by
    rw [rest, front, List.takeWhile_append_dropWhile]
  have inOrder : l.window.Pairwise fun e f => l.expired rn f = true → l.expired rn e = true := by
    refine ring.ordered.imp fun before old => ?_
    rw [expired_iff] at old ⊢
    exact lt_of_le_of_lt before old
  have distinct := ring.distinct
  have ordered := ring.ordered
  rw [← split, List.map_append] at distinct
  rw [← split] at ordered
  refine ⟨⟨bounded, ?_, ?_, ?_⟩, by rw [window, rest, dropWhile_eq_filter_iff.mpr inOrder]⟩
  · rw [window]
    exact (List.nodup_append.mp distinct).2.1
  · rw [window, ← toFinset_sdiff_of_nodup distinct, ← List.map_append, split, ← ring.known_eq]
    rfl
  · rw [window]
    exact (List.pairwise_append.mp ordered).2.1

theorem keeps_iff {s : Clocked} {call : Call} (bounded : s.list.Bounded) (filled : s.list.window ≠ []) :
    Keeps s call ↔ (s.list.stale call.now).length ≤ s.list.length := by
  have room : s.list.length < (s.list.peers.rotate s.list.start).length := by
    simpa using bounded.length_lt
  rw [Keeps, or_iff_right filled, stale, length_takeWhile_le_iff room]
  simp [ring, expired]

/-- An empty list stays as it is: all its slots are alike. -/
theorem new_forget (threshold : Nat) : (new threshold).forget ((new threshold).stale rn) = new threshold := by
  have slots : (new threshold).peers.rotate (new threshold).start = List.replicate 32 .default := rfl
  rw [stale, slots, List.takeWhile_replicate]
  split <;> simp [OnlineList.forget, new]

theorem ringInvariant_new (threshold : Nat) : (new threshold).RingInvariant := by
  have empty : (new threshold).window = [] := rfl
  refine ⟨⟨by simp [new], by simp [new]⟩, ?_, ?_, ?_⟩ <;> rw [empty]
  · exact .nil
  · rfl
  · exact .nil

/-- What holds before each call: the list is new, or the ring invariant holds, with entries
up to the clock. -/
def Ready (s : Clocked) : Prop :=
  (∃ threshold, s.list = new threshold) ∨
    s.list.RingInvariant ∧ s.list.window ≠ [] ∧ ∀ e ∈ s.list.window, e.lastOnline ≤ s.clock

variable {s t : Clocked} {call : Call}

theorem Ready.trim (ready : Ready s) (keeps : Keeps s call) :
    ∃ l, s.list.trim call.now = .ok l ∧ l.RingInvariant ∧ l.threshold = s.list.threshold ∧
      (∀ e ∈ l.window, e.lastOnline ≤ s.clock) ∧ l.Fresh call.now := by
  rcases ready with ⟨threshold, fresh⟩ | ⟨ring, filled, upTo⟩
  · have invariant := ringInvariant_new threshold
    have empty : s.list.window = [] := by
      rw [fresh]
      rfl
    refine ⟨s.list, ?_, by rwa [fresh], rfl, by simp [empty], by simp [Fresh, empty]⟩
    rw [fresh, trim_eq invariant.start_lt]
    exact congrArg Outcome.ok (new_forget threshold)
  · obtain ⟨after, window⟩ := ring.forget ((keeps_iff ring.toBounded filled).mp keeps)
    refine ⟨_, trim_eq ring.start_lt, after, rfl, fun e member => ?_, fun e member => ?_⟩ <;>
      rw [window, List.mem_filter] at member
    · exact upTo e member.1
    · have kept := member.2
      simp only [expired, Bool.not_eq_true', decide_eq_false_iff_not, not_lt] at kept
      exact kept

theorem Ready.called (ready : Ready s) (keeps : Keeps s call) (allocates : ∀ n, n ≤ capacity n)
    (called : Called capacity s call t) : Sound t ∧ Ready t := by
  obtain ⟨onward, clock, returned⟩ := called
  obtain ⟨l, trimmed, ring, threshold, upTo, fresh⟩ := ready.trim keeps
  rw [peerOnline, trimmed, Outcome.ok_bind] at returned
  by_cases present : call.peer ∈ l.known
  · rw [if_pos present] at returned
    have same := Outcome.ok.inj returned
    have filled : l.window ≠ [] := by
      intro empty
      rw [ring.known_eq, empty] at present
      simp at present
    rw [Sound, Ready, ← same, clock]
    exact ⟨⟨ring, fresh⟩, Or.inr ⟨ring, filled, fun e member => (upTo e member).trans onward⟩⟩
  · rw [if_neg present] at returned
    obtain ⟨after, inserted, bounded, window, known, unchanged⟩ :=
      ring.toBounded.insert allocates ⟨call.peer, call.services, call.now⟩
    rw [inserted] at returned
    have same := Outcome.ok.inj returned
    rw [ring.known_eq, List.mem_toFinset] at present
    have invariant : after.RingInvariant := by
      refine ⟨bounded, ?_, ?_, ?_⟩ <;> rw [window]
      · rw [List.map_append, List.nodup_append]
        refine ⟨ring.distinct, List.nodup_singleton _, ?_⟩
        rintro apn member _ (_ | ⟨_, ⟨⟩⟩) rfl
        exact present member
      · rw [known, ring.known_eq]
        ext apn
        rw [Finset.mem_insert, List.mem_toFinset, List.mem_toFinset, List.map_append, List.mem_append,
          List.map_singleton, List.mem_singleton, or_comm]
      · refine List.pairwise_append.mpr ⟨ring.ordered, List.pairwise_singleton _ _, ?_⟩
        rintro e member _ (_ | ⟨_, ⟨⟩⟩)
        exact (upTo e member).trans onward
    rw [Sound, Ready, ← same, clock]
    refine ⟨⟨invariant, ?_⟩, Or.inr ⟨invariant, by simp [window], ?_⟩⟩ <;> intro e member <;>
      rw [window, List.mem_append, List.mem_singleton] at member
    · rcases member with older | rfl
      · rw [unchanged]
        exact fresh e older
      · simp
    · rcases member with older | rfl
      · exact (upTo e older).trans onward
      · exact le_rfl

/-- `trim` beyond the window moves the start past the end: the whole window is inside again, and
no key is left. -/
theorem Bounded.forget_beyond (bounded : l.Bounded) (past : l.length < (l.stale rn).length) :
    (l.forget (l.stale rn)).Bounded ∧ (∀ e ∈ l.window, e ∈ (l.forget (l.stale rn)).window) ∧
      ∀ e ∈ l.window, e.lastOnline < rn - l.threshold ∧ e.apn ∉ (l.forget (l.stale rn)).known := by
  have start := bounded.start_lt
  have fits : (l.stale rn).length ≤ l.peers.length := by
    rw [← List.length_rotate l.peers l.start]
    exact (List.takeWhile_prefix _).length_le
  have after : (l.forget (l.stale rn)).Bounded := ⟨Nat.mod_lt _ (Nat.zero_lt_of_lt start), bounded.stop_lt⟩
  have length : (l.forget (l.stale rn)).length = l.length + (l.peers.length - (l.stale rn).length) := by
    refine after.length_eq ?_ ?_
    · simp only [OnlineList.forget]
      omega
    · simp only [OnlineList.forget, Nat.mod_add_mod]
      rw [← bounded.stop_eq, ← Nat.add_mod_right (l.start + l.length)]
      congr 1
      omega
  have window : (l.forget (l.stale rn)).window = (l.peers.rotate l.start).drop (l.stale rn).length ++ l.window := by
    rw [OnlineList.window, length]
    exact ring_mod.trans (ring_beyond past.le fits)
  have front : l.window = (l.stale rn).take l.length := by
    have cut : l.stale rn = (l.peers.rotate l.start).take (l.stale rn).length :=
      List.prefix_iff_eq_take.mp (List.takeWhile_prefix _)
    rw [OnlineList.window, ring, cut, List.take_take, Nat.min_eq_left past.le]
  refine ⟨after, fun e member => ?_, fun e member => ?_⟩
  · rw [window]
    exact List.mem_append_right _ member
  · rw [front] at member
    have dropped := List.mem_of_mem_take member
    refine ⟨expired_iff.mp (List.mem_takeWhile_imp dropped), fun kept => ?_⟩
    exact (Finset.mem_sdiff.mp kept).2 (by simpa using ⟨e, dropped, rfl⟩)

theorem Ready.spoiled (ready : Ready s) (fails : ¬ Keeps s call) (allocates : ∀ n, n ≤ capacity n)
    (called : Called capacity s call t) : ¬ Sound t := by
  obtain ⟨_, clock, returned⟩ := called
  have filled : s.list.window ≠ [] := fun empty => fails (Or.inl empty)
  rcases ready with ⟨threshold, fresh⟩ | ⟨ring, _, _⟩
  · exact absurd (by rw [fresh]; rfl) filled
  have past : s.list.length < (s.list.stale call.now).length := by
    by_contra inside
    exact fails ((keeps_iff ring.toBounded filled).mpr (Nat.le_of_not_lt inside))
  obtain ⟨bounded, inside, old⟩ := ring.toBounded.forget_beyond past
  obtain ⟨first, member⟩ := List.exists_mem_of_ne_nil _ filled
  have unknown : call.peer ∉ (s.list.forget (s.list.stale call.now)).known := by
    intro kept
    have key := (Finset.mem_sdiff.mp kept).1
    rw [ring.known_eq, List.mem_toFinset] at key
    obtain ⟨e, atWindow, same⟩ := List.mem_map.mp key
    rw [← same] at kept
    exact (old e atWindow).2 kept
  obtain ⟨after, inserted, _, window, _, threshold⟩ :=
    bounded.insert allocates ⟨call.peer, call.services, call.now⟩
  rw [peerOnline, trim_eq ring.start_lt, Outcome.ok_bind] at returned
  rw [if_neg unknown, inserted] at returned
  intro sound
  have young := sound.2
  rw [← Outcome.ok.inj returned, Fresh, window, threshold, clock] at young
  exact absurd (old first member).1 (not_lt.mpr (young first (List.mem_append_left _ (inside first member))))

/-- The calls after which the property holds in every state are those of which each one keeps
it. -/
theorem peerOnline_sound_iff (threshold : Nat) (clock : SystemTime) (calls : List Call)
    (allocates : ∀ n, n ≤ capacity n) :
    Run (fun s call t => Called capacity s call t ∧ Sound t) ⟨new threshold, clock⟩ calls s ↔
      Run (Guarded Keeps (Called capacity)) ⟨new threshold, clock⟩ calls s := by
  have ready : ∀ {calls s}, Run (Guarded Keeps (Called capacity)) ⟨new threshold, clock⟩ calls s → Ready s :=
    fun run => run.invariant (Or.inl ⟨threshold, rfl⟩) fun _ _ _ before step =>
      (before.called step.1 allocates step.2).2
  constructor <;> intro run
  · induction run with
    | nil => exact .nil
    | @snoc _ call s _ _ last ih =>
      refine ih.snoc ⟨?_, last.1⟩
      by_contra fails
      exact (ready ih).spoiled fails allocates last.1 last.2
  · induction run with
    | nil => exact .nil
    | snoc previous last ih => exact ih.snoc ⟨last.2, ((ready previous).called last.1 allocates last.2).1⟩

/-- Two IPv4 peers. -/
def firstPeer : AddressPortNetwork := ⟨.ipv4, 8333, [10, 0, 0, 1]⟩
def secondPeer : AddressPortNetwork := ⟨.ipv4, 8333, [10, 0, 0, 2]⟩

/-- A new list after the first call. -/
def withFirst : OnlineList :=
  { new 180 with
    peers := (new 180).peers.set 0 ⟨firstPeer, 9, 1000⟩
    stop := 1
    known := {firstPeer} }

theorem called_first : Called id ⟨new 180, 1000⟩ ⟨firstPeer, 9, 1000⟩ ⟨withFirst, 1000⟩ :=
  ⟨le_rfl, rfl, rfl⟩

def withBoth (seen : SystemTime) (known : Finset AddressPortNetwork) : OnlineList :=
  { withFirst with
    peers := withFirst.peers.set 1 ⟨secondPeer, 1, seen⟩
    stop := 2
    known := known }

theorem peerOnline_sound_iff_two :
    Run (fun s call t => Called id s call t ∧ Sound t) ⟨new 180, 1000⟩
      [⟨firstPeer, 9, 1000⟩, ⟨secondPeer, 1, 1100⟩] ⟨withBoth 1100 {secondPeer, firstPeer}, 1100⟩ := by
  refine (peerOnline_sound_iff 180 1000 _ fun n => le_rfl).mpr ?_
  have kept : Keeps ⟨withFirst, 1000⟩ ⟨secondPeer, 1, 1100⟩ :=
    Or.inr ⟨⟨firstPeer, 9, 1000⟩, List.mem_cons_self, by decide⟩
  exact .snoc (.single ⟨Or.inl rfl, called_first⟩) ⟨kept, by decide, rfl, rfl⟩

/-- `firstPeer` has expired when `secondPeer` is seen: it stays in the window and is no longer a key. -/
theorem peerOnline_sound_fails :
    ∃ s, Run (Called id) ⟨new 180, 1000⟩ [⟨firstPeer, 9, 1000⟩, ⟨secondPeer, 1, 2000⟩] s ∧ ¬ Sound s := by
  refine ⟨⟨withBoth 2000 {secondPeer}, 2000⟩, .snoc (.single called_first) ⟨by decide, rfl, rfl⟩, fun sound => ?_⟩
  have young : (2000 : Int) - 180 ≤ 1000 := sound.2 ⟨firstPeer, 9, 1000⟩ List.mem_cons_self
  omega

end OnlineList

end Bitlens

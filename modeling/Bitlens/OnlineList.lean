import Mathlib.Data.Finset.Basic
import Mathlib.Data.Finset.Dedup
import Bitlens.Payload
import Bitlens.Lib.Ring

namespace Bitlens
open Lib

deriving instance DecidableEq for NetworkId

structure AddressPortNetwork where
  networkId : NetworkId
  port : UInt16
  address : Bytes
  deriving DecidableEq

/-- The time since `UNIX_EPOCH`, negative before it. -/
abbrev SystemTime := Int

structure AddressPortNetworkWithServicesAndTime where
  apn : AddressPortNetwork
  services : UInt64
  lastOnline : SystemTime
  deriving DecidableEq

/-- `AddressPortNetworkWithServicesAndTime::default`, the content of a slot without a peer. -/
def AddressPortNetworkWithServicesAndTime.default : AddressPortNetworkWithServicesAndTime where
  apn := ⟨.error, 0, []⟩
  services := 0
  lastOnline := 0

/-- The online peers as a ring of slots from `start` up to `stop`, which is `end` in the
source. The keys of the map are the set `known`. -/
structure OnlineList where
  peers : List AddressPortNetworkWithServicesAndTime
  threshold : Nat
  stop : Nat
  start : Nat
  known : Finset AddressPortNetwork

namespace OnlineList

def new (threshold : Nat) : OnlineList where
  peers := List.replicate 32 .default
  threshold := threshold
  stop := 0
  start := 0
  known := ∅

def length (l : OnlineList) : Nat :=
  if l.stop < l.start then l.stop + l.peers.length - l.start else l.stop - l.start

/-- The loop of `trim` over all slots; `start` is where it began. -/
def trimLoop (rn : SystemTime) (start : Nat) : List Nat → OnlineList → Outcome OnlineList
  | [], l => .ok l
  | i :: rest, l => do
    let item ← Outcome.unwrap l.peers[(i + start) % l.peers.length]?
    if item.lastOnline < rn - l.threshold then
      trimLoop rn start rest
        { l with start := (l.start + 1) % l.peers.length, known := l.known.erase item.apn }
    else pure l

def trim (rn : SystemTime) (l : OnlineList) : Outcome OnlineList :=
  trimLoop rn l.start (List.range l.peers.length) l

/-- The part of `peer_online` for a full buffer. `capacity n` is what
`Vec::with_capacity(n)` allocates. -/
def grow (capacity : Nat → Nat) (l : OnlineList) : OnlineList :=
  { l with
    peers := l.peers.drop l.stop ++ l.peers.take l.stop ++
      List.replicate (capacity (l.peers.length * 2) - l.peers.length) .default
    start := 0
    stop := l.peers.length }

def write (entry : AddressPortNetworkWithServicesAndTime) (l : OnlineList) : OnlineList :=
  { l with
    known := Insert.insert entry.apn l.known
    peers := l.peers.set l.stop entry
    stop := (l.stop + 1) % l.peers.length }

/-- The part of `peer_online` for a peer that is not known. -/
def insert (capacity : Nat → Nat) (entry : AddressPortNetworkWithServicesAndTime) (l : OnlineList) :
    Outcome OnlineList :=
  if l.stop < l.peers.length then
    .ok (if (l.write entry).stop = (l.write entry).start then (l.write entry).grow capacity else l.write entry)
  else .fault

/-- `rn` is the time that `trim` reads. -/
def peerOnline (capacity : Nat → Nat) (rn : SystemTime) (peer : AddressPortNetwork) (services : UInt64)
    (lastOnline : SystemTime) (l : OnlineList) : Outcome OnlineList := do
  let l ← l.trim rn
  if peer ∈ l.known then pure l else l.insert capacity ⟨peer, services, lastOnline⟩

/-- The search of `random` through the slots from the drawn index on. -/
def randomLoop (requirement : UInt64) (l : OnlineList) : List Nat → Outcome (Option AddressPortNetwork)
  | [] => .ok none
  | i :: rest => do
    let item ← Outcome.unwrap l.peers[i % l.peers.length]?
    if item.services &&& requirement = requirement then pure (some item.apn) else randomLoop requirement l rest

/-- `index` is what `random_range(0..len)` draws. -/
def random (index : Nat) (services : Option UInt64) (l : OnlineList) : Outcome (Option AddressPortNetwork) :=
  if l.length = 0 then .ok none
  else
    match services with
    | none => do
      let item ← Outcome.unwrap l.peers[index]?
      pure (some item.apn)
    | some requirement => l.randomLoop requirement (List.range' index l.length)

/-- The entries from `start` up to `stop`. -/
def window (l : OnlineList) : List AddressPortNetworkWithServicesAndTime :=
  ring l.peers l.start l.length

/-- Two indices inside the buffer; they are equal for an empty window. -/
structure Bounded (l : OnlineList) : Prop where
  start_lt : l.start < l.peers.length
  stop_lt : l.stop < l.peers.length

variable {l : OnlineList} {capacity : Nat → Nat} {rn : SystemTime}

theorem Bounded.length_lt (bounded : l.Bounded) : l.length < l.peers.length := by
  have start := bounded.start_lt
  have stop := bounded.stop_lt
  unfold length
  split <;> omega

theorem Bounded.stop_eq (bounded : l.Bounded) : (l.start + l.length) % l.peers.length = l.stop := by
  have start := bounded.start_lt
  have stop := bounded.stop_lt
  rw [wrapped start bounded.length_lt.le, length]
  split <;> split <;> omega

/-- The length of the window is the way from `start` to `stop`. -/
theorem Bounded.length_eq {n : Nat} (bounded : l.Bounded) (short : n < l.peers.length)
    (reaches : (l.start + n) % l.peers.length = l.stop) : l.length = n := by
  have start := bounded.start_lt
  rw [wrapped start short.le] at reaches
  unfold length
  split at reaches <;> split <;> omega

/-- What `trim` does with the entries it drops. -/
def forget (l : OnlineList) (dropped : List AddressPortNetworkWithServicesAndTime) : OnlineList :=
  { l with
    start := (l.start + dropped.length) % l.peers.length
    known := l.known \ (dropped.map (·.apn)).toFinset }

def expired (l : OnlineList) (rn : SystemTime) (item : AddressPortNetworkWithServicesAndTime) : Bool :=
  item.lastOnline < rn - l.threshold

theorem forget_cons (item : AddressPortNetworkWithServicesAndTime)
    (dropped : List AddressPortNetworkWithServicesAndTime) :
    ({ l with start := (l.start + 1) % l.peers.length, known := l.known.erase item.apn } : OnlineList).forget dropped =
      l.forget (item :: dropped) := by
  have moved : ((l.start + 1) % l.peers.length + dropped.length) % l.peers.length =
      (l.start + (dropped.length + 1)) % l.peers.length := by
    rw [Nat.mod_add_mod, Nat.add_assoc, Nat.add_comm 1]
  have known : l.known.erase item.apn \ (dropped.map (·.apn)).toFinset =
      l.known \ ((item :: dropped).map (·.apn)).toFinset := by
    ext apn
    simp
    tauto
  simp only [forget, List.length_cons, moved, known]

theorem forget_nil (inside : l.start < l.peers.length) : l.forget [] = l := by
  simp [forget, Nat.mod_eq_of_lt inside]

/-- The slots from `start` on up to the first that has not expired. -/
def stale (l : OnlineList) (rn : SystemTime) : List AddressPortNetworkWithServicesAndTime :=
  (l.peers.rotate l.start).takeWhile (l.expired rn)

/-- The loop drops the slots from `start` on until one has not expired. -/
theorem trimLoop_eq {start i : Nat} {slots : List AddressPortNetworkWithServicesAndTime}
    (inside : l.start < l.peers.length) (ahead : (l.peers.rotate start).drop i = slots) :
    trimLoop rn start (List.range' i slots.length) l = .ok (l.forget (slots.takeWhile (l.expired rn))) := by
  induction slots generalizing i l with
  | nil => simp [trimLoop, forget_nil inside]
  | cons item slots ih =>
    have found : l.peers[(i + start) % l.peers.length]? = some item := by
      have atHead := congrArg (·[0]?) ahead
      simp only [List.getElem?_drop, Nat.add_zero, List.getElem?_cons_zero] at atHead
      have within : i < l.peers.length := by
        obtain ⟨within, _⟩ := List.getElem?_eq_some_iff.mp atHead
        simpa using within
      rw [← List.getElem?_rotate within, atHead]
    have rest : (l.peers.rotate start).drop (i + 1) = slots := by
      rw [← List.drop_drop, ahead]
      rfl
    rw [List.length_cons, List.range'_succ, trimLoop, found, Outcome.unwrap_some, Outcome.ok_bind]
    by_cases old : item.lastOnline < rn - l.threshold
    · rw [if_pos old, ih (l := { l with start := (l.start + 1) % l.peers.length, known := l.known.erase item.apn })
        (Nat.mod_lt _ (Nat.zero_lt_of_lt inside)) rest, List.takeWhile_cons_of_pos (by simpa [expired] using old),
        ← forget_cons]
      rfl
    · rw [if_neg old, List.takeWhile_cons_of_neg (by simpa [expired] using old), forget_nil inside]
      rfl

theorem trim_eq (inside : l.start < l.peers.length) :
    l.trim rn = .ok (l.forget (l.stale rn)) := by
  have loop : trimLoop rn l.start (List.range' 0 (l.peers.rotate l.start).length) l = .ok (l.forget (l.stale rn)) :=
    trimLoop_eq inside rfl
  rwa [List.length_rotate, ← List.range_eq_range'] at loop

end OnlineList

end Bitlens

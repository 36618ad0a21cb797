import Bitlens.JobDelivery

namespace Bitlens
open Lib

/-- A step of the chain watcher, the manager or a peer that moves on what is there already. -/
def DispatchEvent.Internal : DispatchEvent → Prop
  | .sendsJob | .newHeader | .newBlock _ | .manages | .dispatches _ | .registers _ | .gives _ | .takesJob _
  | .asks _ _ => True
  | _ => False

/-- How many steps a point is away from the end of its branch, at most. -/
def LoopPoint.weight : LoopPoint → Nat
  | .registering => 2
  | .sending items => 2 * items.length + 1
  | .asking _ => 3
  | _ => 0

def PeerLoop.weight (peer : PeerLoop) : Nat :=
  peer.point.weight + if peer.received.isSome then 4 else 0

def WatcherPoint.weight : WatcherPoint → Nat
  | .sending _ => 6
  | _ => 0

namespace Dispatch

variable {s t : Dispatch} {event : DispatchEvent} {p : Profile} {sha256 : Bytes → Hash} {scripts : Scripts}

def weight (s : Dispatch) : Nat :=
  s.watcher.weight + 5 * s.jobs.length + s.registrations.length + s.receivedHeaders.length + s.receivedBlocks.length +
    (s.peers.map PeerLoop.weight).sum

/-- The channels of a task that has ended are empty. -/
structure Emptied (s : Dispatch) : Prop where
  closed : s.managing = false → s.registrations = [] ∧ s.jobs = []
  ended : s.watcher = .ended → s.receivedHeaders = [] ∧ s.receivedBlocks = []

theorem Emptied.moves (emptied : Emptied s) (moves : Moves s t) : Emptied t := by
  obtain ⟨closed, ended⟩ := emptied
  cases moves with
  | watches selecting ends =>
    refine ⟨closed, fun panicked => ?_⟩
    rcases ends with rfl | ⟨_, empty⟩
    · cases panicked
    · exact empty
  | ticks _ => exact ⟨closed, WatcherPoint.noConfusion⟩
  | sends _ on => exact ⟨fun off => absurd (on.symm.trans off) Bool.noConfusion, WatcherPoint.noConfusion⟩
  | drops _ _ => exact ⟨closed, WatcherPoint.noConfusion⟩
  | manages waiting =>
    refine ⟨fun off => ?_, ended⟩
    rw [waiting] at closed
    exact absurd (closed off).1 (List.cons_ne_nil _ _)
  | loses waiting | delivers waiting =>
    refine ⟨fun off => ?_, ended⟩
    rw [waiting] at closed
    exact absurd (closed off).2 (List.cons_ne_nil _ _)
  | closes _ empty => exact ⟨fun _ => ⟨rfl, empty⟩, ended⟩
  | connects => exact ⟨closed, ended⟩
  | registers _ _ on => exact ⟨fun off => absurd (on.symm.trans off) Bool.noConfusion, ended⟩
  | panics _ _ _ | takes _ _ _ | orphaned _ _ _ _ | asks _ _ _ | leaves _ _ => exact ⟨closed, ended⟩
  | keeps _ _ _ _ _ _ same =>
    refine ⟨closed, fun panicked => ?_⟩
    obtain ⟨headers, blocks⟩ := same panicked
    rw [headers, blocks]
    exact ended panicked

/-- A peer goes on and gets lighter. -/
theorem weight_setPeer {i : Nat} {peer : PeerLoop} (atI : s.peers[i]? = some peer) (peer' : PeerLoop) :
    (s.setPeer i peer').weight + peer.weight = s.weight + peer'.weight := by
  have balance := sum_map_set (y := peer') PeerLoop.weight atI
  simp only [weight, setPeer]
  omega

theorem exists_busy (heavy : 0 < s.weight) (watcher : s.watcher.weight = 0) (noJobs : s.jobs = [])
    (noRegistrations : s.registrations = []) (noHeaders : s.receivedHeaders = []) (noBlocks : s.receivedBlocks = []) :
    ∃ (i : Nat) (peer : PeerLoop), s.peers[i]? = some peer ∧ 0 < peer.weight := by
  simp only [weight, watcher, noJobs, noRegistrations, noHeaders, noBlocks, List.length_nil] at heavy
  by_contra idle
  have none_ : (s.peers.map PeerLoop.weight).sum = 0 := by
    refine List.sum_eq_zero fun weight member => ?_
    obtain ⟨peer, inPeers, rfl⟩ := List.mem_map.mp member
    obtain ⟨i, atI⟩ := List.getElem?_of_mem inPeers
    exact Nat.eq_zero_of_not_pos fun busy => idle ⟨i, peer, atI, busy⟩
  omega

/-- With empty channels a peer can give an item to the chain watcher. -/
theorem give_total (item : BlockHeaderOwned ⊕ Block) (noHeaders : s.receivedHeaders = [])
    (noBlocks : s.receivedBlocks = []) :
    ∃ u, s.give item = some u ∧ u.peers = s.peers ∧ u.weight ≤ s.weight + 1 := by
  cases item with
  | inl header | inr block =>
    unfold give
    dsimp only
    split
    · exact ⟨s, rfl, rfl, Nat.le_succ _⟩
    · rw [if_pos (by simp [noHeaders, noBlocks, channelCapacity])]
      refine ⟨_, rfl, rfl, ?_⟩
      simp only [weight, List.length_append, List.length_singleton]
      omega

/-- A peer that is not at the end of its branch can go on when the channels have room. -/
theorem progress_of_peer {i : Nat} {peer : PeerLoop} (sound : Sound s) (atI : s.peers[i]? = some peer)
    (heavy : 0 < peer.weight) (noRegistrations : s.registrations = []) (noHeaders : s.receivedHeaders = [])
    (noBlocks : s.receivedBlocks = []) :
    ∃ event t, event.Internal ∧ s.Step p sha256 scripts event t ∧ t.weight < s.weight := by
  have silent : ¬ peer.Listens → peer.received = none := sound.registered.empty_of_not_listens atI
  have lighter : ∀ {peer' : PeerLoop}, peer'.weight < peer.weight → (s.setPeer i peer').weight < s.weight := by
    intro peer' less
    have balance := weight_setPeer atI peer'
    omega
  cases point : peer.point with
  | registering =>
    have empty := silent (by simp [PeerLoop.Listens, point])
    by_cases on : s.managing = true
    · refine ⟨.registers i, { s.setPeer i { peer with point := .selecting } with
        registrations := s.registrations ++ [⟨i, peer.round⟩] }, trivial, ?_, ?_⟩
      · simp [Step, next, atI, point, on, noRegistrations, channelCapacity]
      · have balance := weight_setPeer atI { peer with point := .selecting }
        have before : peer.weight = 2 := by simp [PeerLoop.weight, LoopPoint.weight, point, empty]
        have after : PeerLoop.weight { peer with point := .selecting } = 0 := by
          simp [PeerLoop.weight, LoopPoint.weight, empty]
        rw [before, after] at balance
        simp only [weight, setPeer, List.length_append, List.length_singleton] at balance ⊢
        omega
    · refine ⟨.registers i, s.setPeer i { peer with point := .panicked }, trivial, ?_, lighter ?_⟩
      · simp [Step, next, atI, point, on]
      · simp [PeerLoop.weight, LoopPoint.weight, point]
  | selecting =>
    cases received : peer.received with
    | none => simp [PeerLoop.weight, LoopPoint.weight, point, received] at heavy
    | some job =>
      refine ⟨.takesJob i, s.setPeer i { peer with point := .asking job, received := none }, trivial, ?_, lighter ?_⟩
      · simp [Step, next, atI, point, received]
      · simp [PeerLoop.weight, LoopPoint.weight, point, received]
  | sending items =>
    cases items with
    | nil =>
      refine ⟨.gives i, s.setPeer i { peer with point := .selecting }, trivial, ?_, lighter ?_⟩
      · simp [Step, next, atI, point]
      · simp [PeerLoop.weight, LoopPoint.weight, point]
    | cons item items =>
      obtain ⟨u, gave, same, more⟩ := give_total item noHeaders noBlocks
      have atU : u.peers[i]? = some peer := same ▸ atI
      have balance := weight_setPeer atU { peer with point := .sending items }
      have before : peer.weight = PeerLoop.weight { peer with point := .sending items } + 2 := by
        simp only [PeerLoop.weight, LoopPoint.weight, point, List.length_cons]
        omega
      refine ⟨.gives i, u.setPeer i { peer with point := .sending items }, trivial, ?_, by omega⟩
      simp [Step, next, atI, point, gave]
  | asking job =>
    have empty := silent (by simp [PeerLoop.Listens, point])
    refine ⟨.asks i ⟨false, false⟩, s.setPeer i ⟨.registering, peer.round + 1, none, peer.asked ++ [job]⟩, trivial, ?_,
      lighter ?_⟩
    · simp [Step, next, atI, point, SyncFlags.shouldProcessBlocks, SyncFlags.shouldProcessHeaders]
    · simp [PeerLoop.weight, LoopPoint.weight, point, empty]
  | gone | panicked =>
    have empty := silent (by simp [PeerLoop.Listens, point])
    simp [PeerLoop.weight, LoopPoint.weight, point, empty] at heavy

/-- The watcher takes what it has received. -/
theorem weight_watched (s : Dispatch) (keepup : Keepup) (outcome : Outcome Unit) :
    (s.watched keepup outcome).weight ≤ s.weight := by
  cases outcome <;> simp only [watched, weight, WatcherPoint.weight, List.length_nil] <;> omega

/-- The manager gives a job to a worker, or drops it. -/
theorem progress_of_job (sound : Sound s) (emptied : Emptied s) (waiting : s.jobs ≠ []) :
    ∃ event t, event.Internal ∧ s.Step p sha256 scripts event t ∧ t.weight < s.weight := by
  obtain ⟨job, rest, jobs⟩ := List.exists_cons_of_ne_nil waiting
  have on : s.managing = true := by
    by_contra off
    exact waiting (emptied.closed (Bool.eq_false_of_not_eq_true off)).2
  obtain ⟨⟨worker, workers⟩, offered⟩ : ∃ result, offer s.alive (fun _ => 0) s.workers.length s.workers = result :=
    ⟨_, rfl⟩
  refine ⟨.dispatches fun _ => 0, { s with jobs := rest, workers := workers }.deliver job worker, trivial, ?_, ?_⟩
  · simp [Step, next, jobs, on, offered]
  · have fewer : ({ s with jobs := rest, workers := workers } : Dispatch).weight + 5 = s.weight := by
      simp only [weight, jobs, List.length_cons]
      omega
    obtain ⟨⟨dead, whole, _⟩, there⟩ := offer_spec le_rfl offered
    cases worker with
    | none =>
      rw [deliver]
      omega
    | some r =>
      have member : r ∈ s.registrations ++ s.workers :=
        List.mem_append_right _ (whole.mem_iff.mpr (by simp))
      obtain ⟨peer, atR, _, empty, _⟩ := sound.registered.current r member
      have atR' : ({ s with jobs := rest, workers := workers } : Dispatch).peers[r.peer]? = some peer := atR
      have balance := weight_setPeer atR' { peer with received := some job }
      have after : PeerLoop.weight { peer with received := some job } = peer.weight + 4 := by
        simp [PeerLoop.weight, empty]
      simp only [deliver, atR]
      omega

/-- The chain watcher takes a header or a block. -/
theorem progress_of_received (selecting : s.watcher = .selecting)
    (received : s.receivedHeaders ≠ [] ∨ s.receivedBlocks ≠ []) :
    ∃ event t, event.Internal ∧ s.Step p sha256 scripts event t ∧ t.weight < s.weight := by
  rcases received with headers | blocks
  · obtain ⟨header, rest, waiting⟩ := List.exists_cons_of_ne_nil headers
    refine ⟨.newHeader, _, trivial, ?_, Nat.lt_of_le_of_lt (weight_watched { s with receivedHeaders := rest }
      ⟨(handleNewHeader p header s.toWatcher).1, s.effects⟩ (handleNewHeader p header s.toWatcher).2) ?_⟩
    · simp [Step, next, selecting, waiting]
    · simp only [weight, waiting, List.length_cons]
      omega
  · obtain ⟨block, rest, waiting⟩ := List.exists_cons_of_ne_nil blocks
    let result := handleNewBlock p sha256 scripts (surroundings none) (some (.block block)) s.toKeepup
    refine ⟨.newBlock (surroundings none), _, trivial, ?_,
      Nat.lt_of_le_of_lt (weight_watched { s with receivedBlocks := rest } result.1 result.2) ?_⟩
    · simp [Step, next, selecting, waiting, result]
    · simp only [weight, waiting, List.length_cons]
      omega

/-- In a state that is not at rest some task can go on. -/
theorem progress (sound : Sound s) (emptied : Emptied s) (heavy : 0 < s.weight) :
    ∃ event t, event.Internal ∧ s.Step p sha256 scripts event t ∧ t.weight < s.weight := by
  by_cases waiting : s.jobs ≠ []
  · exact progress_of_job sound emptied waiting
  have noJobs : s.jobs = [] := not_not.mp waiting
  cases registrations : s.registrations with
  | cons r rest =>
    have on : s.managing = true := by
      by_contra off
      rw [(emptied.closed (Bool.eq_false_of_not_eq_true off)).1] at registrations
      cases registrations
    refine ⟨.manages, { s with registrations := rest, workers := s.workers ++ [r] }, trivial, ?_, ?_⟩
    · simp [Step, next, registrations, on]
    · simp only [weight, registrations, List.length_cons]
      omega
  | nil =>
    cases watcher : s.watcher with
    | sending job =>
      have on := sound.managed (by rw [watcher]; exact WatcherPoint.noConfusion)
      refine ⟨.sendsJob, { s with watcher := .selecting, jobs := s.jobs ++ [job] }, trivial, ?_, ?_⟩
      · simp [Step, next, watcher, on, noJobs, channelCapacity]
      · simp only [weight, watcher, WatcherPoint.weight, noJobs, List.length_append, List.length_singleton]
        omega
    | selecting =>
      by_cases received : s.receivedHeaders ≠ [] ∨ s.receivedBlocks ≠ []
      · exact progress_of_received watcher received
      · rw [not_or, not_not, not_not] at received
        obtain ⟨i, peer, atI, busy⟩ :=
          exists_busy heavy (by rw [watcher]; rfl) noJobs registrations received.1 received.2
        exact progress_of_peer sound atI busy registrations received.1 received.2
    | ended =>
      have empty := emptied.ended watcher
      obtain ⟨i, peer, atI, busy⟩ := exists_busy heavy (by rw [watcher]; rfl) noJobs registrations empty.1 empty.2
      exact progress_of_peer sound atI busy registrations empty.1 empty.2

/-- No task waits for another one: the channels are empty, and each peer whose session goes on waits
in its loop. -/
structure AtRest (s : Dispatch) : Prop where
  watcher : ∀ job, s.watcher ≠ .sending job
  jobs : s.jobs = []
  registrations : s.registrations = []
  receivedHeaders : s.receivedHeaders = []
  receivedBlocks : s.receivedBlocks = []
  peers : ∀ peer ∈ s.peers, peer.alive = true → peer.point = .selecting ∧ peer.received = none

theorem atRest_of_weight (light : s.weight = 0) : AtRest s := by
  unfold weight at light
  have peers : (s.peers.map PeerLoop.weight).sum = 0 := by omega
  refine ⟨fun job sending => ?_, ?_, ?_, ?_, ?_, fun peer member alive => ?_⟩
  · rw [sending, WatcherPoint.weight] at light
    omega
  · exact List.length_eq_zero_iff.mp (by omega)
  · exact List.length_eq_zero_iff.mp (by omega)
  · exact List.length_eq_zero_iff.mp (by omega)
  · exact List.length_eq_zero_iff.mp (by omega)
  · have none_ : peer.weight = 0 := List.sum_eq_zero_iff.mp peers _ (List.mem_map_of_mem member)
    unfold PeerLoop.weight at none_
    cases point : peer.point <;> simp [PeerLoop.alive, LoopPoint.weight, point] at alive none_ ⊢
    exact none_

theorem drains_of_sound (sound : Sound s) (emptied : Emptied s) :
    ∃ events t, events.length ≤ s.weight ∧ (∀ event ∈ events, event.Internal) ∧
      Run (Step p sha256 scripts) s events t ∧ t.weight = 0 := by
  induction weight : s.weight using Nat.strong_induction_on generalizing s with
  | _ n ih =>
    rcases Nat.eq_zero_or_pos n with light | heavy
    · exact ⟨[], s, by simp, by simp, .nil, weight.trans light⟩
    · obtain ⟨event, u, internal, step, lighter⟩ := @progress s p sha256 scripts sound emptied (weight ▸ heavy)
      have moves := moves_of_step step
      obtain ⟨events, t, few, all, run, light⟩ :=
        ih u.weight (weight ▸ lighter) (sound.moves moves) (emptied.moves moves) rfl
      refine ⟨event :: events, t, ?_, List.forall_mem_cons.mpr ⟨internal, all⟩, .cons step run, light⟩
      rw [List.length_cons]
      omega

/-- The tasks never wait for each other in a circle: from every reachable state some of their own
steps, at most as many as the weight of the state, lead to one where all channels are empty, and
where each peer whose session goes on waits as a worker for its next job as long as the manager runs. -/
theorem drains {w : Chainman} {events : List DispatchEvent} (run : Run (Step p sha256 scripts) (start w) events s) :
    ∃ more t, more.length ≤ s.weight ∧ (∀ event ∈ more, event.Internal) ∧ Run (Step p sha256 scripts) s more t ∧
      AtRest t ∧ (t.managing = true → ∀ i peer, t.peers[i]? = some peer → peer.alive = true →
        ⟨i, peer.round⟩ ∈ t.workers) := by
  have sound := sound_of_run run
  have emptied : Emptied s := by
    refine run.invariant ⟨?_, ?_⟩ fun _ _ _ before step => before.moves (moves_of_step step)
    all_goals simp [start]
  obtain ⟨more, t, few, internal, onward, light⟩ := drains_of_sound sound emptied
  have rest := atRest_of_weight light
  have calm : Sound t := onward.invariant sound fun _ _ _ before step => before.moves (moves_of_step step)
  refine ⟨more, t, few, internal, onward, rest, fun on i peer atI alive => ?_⟩
  obtain ⟨selecting, empty⟩ := rest.peers peer (List.mem_of_getElem? atI) alive
  have listed := calm.registered.listed on i peer atI (by simp [PeerLoop.Listens, selecting]) empty
  rwa [rest.registrations, List.nil_append] at listed

theorem drains_mined : afterOneJob.weight = 2 ∧ ∃ more t, more.length ≤ afterOneJob.weight ∧
    Run (Step .dev Sha256.sha256 quietScripts) afterOneJob more t ∧ AtRest t := by
  obtain ⟨more, t, few, _, onward, rest, _⟩ := drains oneJob_run
  exact ⟨by decide, more, t, few, onward, rest⟩

end Dispatch

end Bitlens

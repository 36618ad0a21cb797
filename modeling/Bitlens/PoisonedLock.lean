import Bitlens.PeerTasks

namespace Bitlens
open Lib

namespace AddrMan

variable {s t : AddrMan} {event : AddrManEvent} {boot : Nat}

/-- The services that a peer says fit into a column of the table. -/
def FittingServices : AddrManEvent → Prop
  | .connects _ services _ _ => services.toNat < 2 ^ 63
  | _ => True

/-- No panic of a batcher reaches a task, and the services that are to be noted fit. -/
structure Unharmed (s : AddrMan) : Prop where
  tasks : ∀ t ∈ s.tasks, t.point ≠ .panicked
  healthy : s.poisoned = false
  inserting : s.insertPeers.running = true
  deleting : s.deletePeers.running = true
  banning : s.banPeers.running = true
  versions : s.updateVersions.running = true
  firstOnlines : s.updateFirstOnlines.running = true
  greeted : ∀ t ∈ s.tasks, ∀ services blockHeight userAgent,
    t.point = .greeting services blockHeight userAgent → services.toNat < 2 ^ 63
  pending : ∀ r ∈ s.updateVersions.pending, r.services.toNat < 2 ^ 63

theorem Unharmed.started (clock : Nat) (allPeers peers : List AddressPortNetwork) (bannedPeers : List BanPeerRequest) :
    Unharmed (started clock allPeers peers bannedPeers) := by
  refine ⟨?_, rfl, rfl, rfl, rfl, rfl, rfl, ?_, ?_⟩ <;> simp [AddrMan.started, Batcher.new]

theorem Unharmed.crawl (unharmed : Unharmed s) (i : Nat) {u : CrawlTask} (runs : u.point ≠ .panicked)
    (greeted : ∀ services blockHeight userAgent, u.point = .greeting services blockHeight userAgent →
      services.toNat < 2 ^ 63) (connected : Finset AddressPortNetwork) :
    Unharmed { s with tasks := s.tasks.set i u, connectedPeers := connected } := by
  refine { unharmed with tasks := fun v member => ?_, greeted := fun v member => ?_ }
  · rcases List.mem_or_eq_of_mem_set member with before | rfl
    · exact unharmed.tasks v before
    · exact runs
  · rcases List.mem_or_eq_of_mem_set member with before | rfl
    · exact unharmed.greeted v before
    · exact greeted

theorem Unharmed.crawled (unharmed : Unharmed s) (fits : FittingServices event) {i : Nat} {task : CrawlTask}
    (atI : s.tasks[i]? = some task) (crawls : Crawls s i task event t) : Unharmed t := by
  cases crawls with
  | connects waiting =>
    refine unharmed.crawl i (u := { task with point := .greeting _ _ _ }) (by simp) ?_ _
    intro services blockHeight userAgent point
    cases point
    exact fits
  | greets point =>
    have moved := unharmed.crawl i (u := { task with point := .connected }) (by simp) (by simp) s.connectedPeers
    refine { moved with pending := ?_ }
    refine List.forall_mem_append.mpr ⟨unharmed.pending, fun r last => ?_⟩
    rw [List.mem_singleton.mp last]
    exact unharmed.greeted task (List.mem_of_getElem? atI) _ _ _ point
  | stops _ closed =>
    have stopped := closed unharmed.versions
    rw [unharmed.firstOnlines] at stopped
    cases stopped
  | @fails session | @leaves session =>
    rcases evaluated_point task session with point | point
    · exact unharmed.crawl i (by simp [point]) (by simp [point]) _
    · exact unharmed.crawl i (by simp [point]) (by simp [point]) _
  | dies => exact unharmed.crawl i (u := { task with point := .dead }) (by simp) (by simp) _
  | deletes =>
    have moved := unharmed.crawl i (u := { task with point := .banning s.clock }) (by simp) (by simp) s.connectedPeers
    exact { moved with deleting := unharmed.deleting }
  | cannotDelete _ closed =>
    rw [unharmed.deleting] at closed
    cases closed
  | bans =>
    have moved := unharmed.crawl i (u := { task with point := .done }) (by simp) (by simp) s.connectedPeers
    exact { moved with banning := unharmed.banning }
  | cannotBan _ closed =>
    rw [unharmed.banning] at closed
    cases closed

/-- The step lemma. -/
theorem Unharmed.step (unharmed : Unharmed s) (sound : SoundSince boot s) (fits : FittingServices event)
    (step : s.Step event t) : Unharmed t := by
  cases sound.moves_of_step step with
  | crawls atI crawls => exact unharmed.crawled fits atI crawls
  | inserts => exact { unharmed with inserting := unharmed.inserting }
  | givesUp _ closed =>
    rw [unharmed.inserting] at closed
    cases closed
  | spawns =>
    exact { unharmed with
      tasks := List.forall_mem_append.mpr ⟨unharmed.tasks, by simp⟩
      greeted := List.forall_mem_append.mpr ⟨unharmed.greeted, by simp⟩ }
  | flushesInserts flushes =>
    obtain ⟨running, free⟩ := (rowsToCome_of_flushes sound.rows flushes).2 unharmed.healthy
    exact { unharmed with inserting := running, healthy := free }
  | flushesDeletes flushes =>
    obtain ⟨running, free⟩ := flushes.runs unharmed.healthy fun _ _ _ => rfl
    exact { unharmed with deleting := running, healthy := free }
  | flushesBans flushes =>
    obtain ⟨running, free⟩ := (bansToCome_of_flushes sound.keys flushes).2 unharmed.healthy
    exact { unharmed with banning := running, healthy := free }
  | flushesVersions flushes =>
    obtain ⟨running, free⟩ := flushes.runs unharmed.healthy fun r member rows => by
      rw [updatePeerFromVersion, if_pos (unharmed.pending r member)]
      rfl
    exact { unharmed with
      versions := running
      healthy := free
      pending := fun r member => unharmed.pending r (flushes.fewer.subset member) }
  | flushesFirstOnlines flushes =>
    obtain ⟨running, free⟩ := flushes.runs unharmed.healthy fun _ _ _ => rfl
    exact { unharmed with firstOnlines := running, healthy := free }
  | restarts => exact Unharmed.started _ _ _ _
  | waits | seen | appends | takes => exact { unharmed with healthy := unharmed.healthy }

/-- A peer whose services do not fit stops the batcher that notes them, and poisons the lock of the others. -/
theorem stops_of_services {count : Nat} {b : Batcher UpdatePeerFromVersionRequest} {rows : List AddressPortNetwork}
    {poisoned : Bool} {r : UpdatePeerFromVersionRequest} (batched : r ∈ s.updateVersions.pending.take count)
    (large : 2 ^ 63 ≤ r.services.toNat)
    (flushed : s.updateVersions.flush updatePeerFromVersion count s.poisoned s.peers = some (b, rows, poisoned)) :
    b.running = false ∧ poisoned = true := by
  have fails : ∀ rows, updatePeerFromVersion rows r = none := fun rows => if_neg large.not_gt
  have stuck : (s.updateVersions.pending.take count).foldlM updatePeerFromVersion s.peers = none :=
    Batcher.foldlM_of_failing batched fails
  cases Batcher.flushes_of_flush flushed with
  | panics => exact ⟨rfl, rfl⟩
  | commits _ result => cases stuck.symm.trans result

/-- In every run each known peer is in one place on its way to its only crawl task, the tracker holds the peers that
are connected, and no assertion of the tracker fails. While all services fit, no batcher ever panics, nor a task at one. -/
theorem crawls_each_once {clock : Nat} {events : List AddrManEvent}
    (run : Run (Guarded SlowRestart Step) (new clock) events s) :
    s.places.Nodup ∧ (∀ peer, peer ∈ s.knownPeers ↔ peer ∈ s.places) ∧
      (∀ peer, peer ∈ s.connectedPeers ↔ ∃ t ∈ s.tasks, t.peer = peer ∧ t.point.tracked = true) ∧
      (∀ t ∈ s.tasks, t.point ≠ .asserted) ∧
      ((∀ event ∈ events, FittingServices event) → s.Unharmed) := by
  have kept : Sound s ∧ ((∀ event ∈ events, FittingServices event) → s.Unharmed) := by
    refine run.history (P := fun events s => Sound s ∧ ((∀ event ∈ events, FittingServices event) → s.Unharmed))
      ⟨Sound.new clock, fun _ => Unharmed.started _ _ _ _⟩ ?_
    rintro labels s event t ⟨⟨boot, sound⟩, unharmed⟩ ⟨slow, step⟩
    refine ⟨Sound.step ⟨boot, sound⟩ slow step, fun fits => ?_⟩
    obtain ⟨before, last⟩ := List.forall_mem_append.mp fits
    exact (unharmed before).step sound (last event List.mem_cons_self) step
  obtain ⟨⟨boot, sound⟩, unharmed⟩ := kept
  exact ⟨sound.places, sound.known, sound.connected, sound.asserts, unharmed⟩

def crawledPeer : AddressPortNetwork := ⟨.ipv4, 8333, [10, 0, 0, 1]⟩

/-- A peer is heard of twice at once, its task connects, and what its version says is noted. -/
def crawledOnce : List AddrManEvent :=
  [.seen [crawledPeer, crawledPeer] 1, .appends 0, .inserts 0, .flushInserts 1, .takes, .spawns,
    .connects 0 9 800000 [], .greets 0 false, .flushVersions 1, .flushFirstOnlines 1]

theorem crawls_each_once_connected : (after next (new 0) crawledOnce).connectedPeers = {crawledPeer} ∧
    (after next (new 0) crawledOnce).places.Nodup ∧ (after next (new 0) crawledOnce).Unharmed := by
  have run : Run (Guarded SlowRestart Step) (new 0) crawledOnce (after next (new 0) crawledOnce) := by
    refine Run.guarded_of_labels (Run.of_after (fun _ _ _ taken => taken) (by decide)) fun event member s => ?_
    simp only [crawledOnce, List.mem_cons, List.not_mem_nil, or_false] at member
    rcases member with rfl | rfl | rfl | rfl | rfl | rfl | rfl | rfl | rfl | rfl <;> trivial
  have spec := crawls_each_once run
  refine ⟨by decide, spec.1, spec.2.2.2.2 fun event member => ?_⟩
  simp only [crawledOnce, List.mem_cons, List.not_mem_nil, or_false] at member
  rcases member with rfl | rfl | rfl | rfl | rfl | rfl | rfl | rfl | rfl | rfl <;> simp [FittingServices]

end AddrMan

end Bitlens

import Bitlens.PoisonedLock

namespace Bitlens
open Lib

theorem notePeers_subset (apns : List AddressPortNetwork) (known : Finset AddressPortNetwork) :
    ∀ peer ∈ (notePeers apns known).2, peer ∈ apns ∨ peer ∈ known := by
  induction apns generalizing known with
  | nil => exact fun peer => Or.inr
  | cons apn apns ih =>
    rw [notePeers]
    split
    · exact fun peer member => (ih known peer member).imp_left (List.mem_cons_of_mem _)
    · intro peer member
      rcases ih (insert apn known) peer member with later | before
      · exact Or.inl (List.mem_cons_of_mem _ later)
      · rcases Finset.mem_insert.mp before with rfl | old
        · exact Or.inl List.mem_cons_self
        · exact Or.inr old

/-- The task has sent the deletion of its peer. -/
def CrawlTask.Ended (t : CrawlTask) : Prop :=
  t.point = .done ∨ ∃ now, t.point = .banning now

namespace AddrMan

variable {s t : AddrMan} {event : AddrManEvent} {boot : Nat} {peer : AddressPortNetwork}

/-- No row of the peer is on its way, and one that is there is to be deleted. -/
structure Gone (s : AddrMan) (peer : AddressPortNetwork) : Prop where
  pending : peer ∉ s.insertPeers.pending.map (·.apn)
  unsent : peer ∉ s.seen.flatMap SeenTask.toInsert
  deleted : peer ∈ s.peers → ∃ r ∈ s.deletePeers.pending, r.apn = peer

/-- A peer is deleted when its row is in the table. -/
def Written (s : AddrMan) : AddrManEvent → Prop
  | .deletes i => ∀ t ∈ s.tasks[i]?, t.peer ∈ s.peers
  | _ => True

instance (s : AddrMan) (event : AddrManEvent) : Decidable (SlowRestart s event) := by
  cases event <;> unfold SlowRestart <;> infer_instance

instance (s : AddrMan) (event : AddrManEvent) : Decidable (Written s event) := by
  cases event <;> unfold Written <;> infer_instance

theorem Gone.frame (gone : Gone s peer) (inserts : t.insertPeers = s.insertPeers) (seen : t.seen = s.seen)
    (peers : t.peers = s.peers) (queued : s.deletePeers.pending ⊆ t.deletePeers.pending) : Gone t peer := by
  refine ⟨inserts ▸ gone.pending, seen ▸ gone.unsent, fun inTable => ?_⟩
  obtain ⟨r, pending, name⟩ := gone.deleted (peers ▸ inTable)
  exact ⟨r, queued pending, name⟩

theorem not_mem_of_deletePeerRows {requests : List DeletePeerRequest} {rows rows' : List AddressPortNetwork}
    (result : requests.foldlM deletePeerRows rows = some rows') {r : DeletePeerRequest} (member : r ∈ requests) :
    r.apn ∉ rows' := by
  induction requests generalizing rows with
  | nil => cases member
  | cons q requests ih =>
    rcases List.mem_cons.mp member with same | later
    · intro inRows
      have kept :=
        (deletePeerRows_sublist (show requests.foldlM deletePeerRows _ = some rows' from result)).subset inRows
      rw [same] at kept
      simp at kept
    · exact ih result later

theorem Gone.flushDeletes (gone : Gone s peer) {count : Nat} {b : Batcher DeletePeerRequest}
    {rows : List AddressPortNetwork} {poisoned : Bool}
    (flushes : Batcher.Flushes deletePeerRows count s.poisoned s.deletePeers s.peers b rows poisoned) :
    Gone { s with deletePeers := b, peers := rows, poisoned := poisoned } peer := by
  refine { gone with deleted := fun inRows => ?_ }
  obtain ⟨r, member, name⟩ := gone.deleted (flushes.deleted.subset inRows)
  cases flushes with
  | panics => exact ⟨r, member, name⟩
  | commits _ result =>
    rw [← List.take_append_drop count s.deletePeers.pending, List.mem_append] at member
    rcases member with executed | waits
    · exact absurd (name ▸ inRows) (not_mem_of_deletePeerRows result executed)
    · exact ⟨r, waits, name⟩

theorem Gone.flushInserts (gone : Gone s peer) (rows : s.rowsToCome.Nodup) {count : Nat} {b : Batcher InsertPeerRequest}
    {peers : List AddressPortNetwork} {poisoned : Bool}
    (flushes : Batcher.Flushes insertPeerRow count s.poisoned s.insertPeers s.peers b peers poisoned) :
    Gone { s with insertPeers := b, peers := peers, poisoned := poisoned } peer := by
  refine { gone with pending := fun waits => gone.pending ?_, deleted := fun inRows => gone.deleted ?_ }
  · exact (flushes.fewer.map _).subset waits
  · have whole := (rowsToCome_of_flushes rows flushes).1
    have either : peer ∈ s.peers ++ s.insertPeers.pending.map (·.apn) := whole ▸ List.mem_append_left _ inRows
    exact (List.mem_append.mp either).resolve_right gone.pending

theorem Gone.flushUpdates (gone : Gone s peer) {b : Batcher UpdatePeerFromVersionRequest}
    {b' : Batcher UpdatePeerFirstOnlineRequest} {poisoned : Bool} :
    Gone { s with updateVersions := b, updateFirstOnlines := b', poisoned := poisoned } peer :=
  gone.frame rfl rfl rfl (List.Subset.refl _)

theorem Gone.see (gone : Gone s peer) (known : peer ∈ s.knownPeers) (apns : List AddressPortNetwork) (time : Nat)
    (step : s.Step (.seen apns time) t) : Gone t peer := by
  obtain ⟨_, fresh, _⟩ := notePeers_spec apns s.knownPeers
  cases step
  refine { gone with unsent := ?_ }
  dsimp only
  split
  · exact gone.unsent
  · rw [List.flatMap_append, List.mem_append, List.flatMap_singleton]
    rintro (before | new)
    · exact gone.unsent before
    · exact fresh peer new known

/-- The step of a list of `peers_seen` takes one of its peers at most. -/
theorem Gone.move (gone : Gone s peer) {i : Nat} {x y : SeenTask} (atI : s.seen[i]? = some x)
    (fewer : y.toInsert ⊆ x.toInsert) : peer ∉ (s.seen.set i y).flatMap SeenTask.toInsert := by
  obtain ⟨front, back, whole, replaced⟩ := exists_slot atI
  have absent := gone.unsent
  rw [whole, List.flatMap_append, List.flatMap_cons, List.mem_append, List.mem_append] at absent
  rw [replaced, List.flatMap_append, List.flatMap_cons, List.mem_append, List.mem_append]
  exact fun present => absent (present.imp_right (Or.imp_left (@fewer peer)))

/-- The invariant: a task that has sent its deletion leaves nothing behind. -/
def Leaves (s : AddrMan) : Prop :=
  ∀ task ∈ s.tasks, task.Ended → Gone s task.peer

theorem Leaves.frame (leaves : Leaves s)
    (tasks : ∀ task ∈ t.tasks, task.Ended → ∃ before ∈ s.tasks, before.peer = task.peer ∧ before.Ended)
    (inserts : t.insertPeers = s.insertPeers) (seen : t.seen = s.seen) (peers : t.peers = s.peers)
    (queued : s.deletePeers.pending ⊆ t.deletePeers.pending) : Leaves t := by
  intro task member ended
  obtain ⟨before, inTasks, name, endedBefore⟩ := tasks task member ended
  exact name ▸ (leaves before inTasks endedBefore).frame inserts seen peers queued

/-- A crawl task goes on to a point where it has not ended. -/
theorem Leaves.goOn (leaves : Leaves s) {i : Nat} {u : CrawlTask} (runs : ¬ u.Ended)
    (tasks : t.tasks = s.tasks.set i u) (inserts : t.insertPeers = s.insertPeers) (seen : t.seen = s.seen)
    (peers : t.peers = s.peers) (queued : s.deletePeers.pending ⊆ t.deletePeers.pending) : Leaves t := by
  refine leaves.frame (fun v member ended => ?_) inserts seen peers queued
  rw [tasks] at member
  rcases List.mem_or_eq_of_mem_set member with before | rfl
  · exact ⟨v, before, rfl, ended⟩
  · exact absurd ended runs

theorem Leaves.crawled (leaves : Leaves s) (sound : SoundSince boot s) {i : Nat} {task : CrawlTask}
    (atI : s.tasks[i]? = some task) (written : Written s event) (crawls : Crawls s i task event t) : Leaves t := by
  have still := List.Subset.refl s.deletePeers.pending
  cases crawls with
  | connects | greets | stops | dies | cannotDelete | cannotBan =>
    exact leaves.goOn (u := { task with point := _ }) (by simp [CrawlTask.Ended]) rfl rfl rfl rfl still
  | @fails session | @leaves session =>
    refine leaves.goOn (u := task.evaluated session) ?_ rfl rfl rfl rfl still
    rcases evaluated_point task session with point | point <;> simp [CrawlTask.Ended, point]
  | deletes ready =>
    intro v member ended
    rcases List.mem_or_eq_of_mem_set member with before | rfl
    · exact (leaves v before ended).frame rfl rfl rfl (List.subset_append_left _ _)
    · have inTable : task.peer ∈ s.peers := written task atI
      have rows := sound.rows
      rw [rowsToCome, List.append_assoc] at rows
      have apart := (List.nodup_append.mp rows).2.2 task.peer inTable
      refine ⟨fun waits => apart _ (List.mem_append_left _ waits) rfl, fun unsent => ?_, fun _ => ?_⟩
      · exact apart _ (List.mem_append_right _ unsent) rfl
      · exact ⟨⟨task.peer⟩, List.mem_append_right _ List.mem_cons_self, rfl⟩
  | bans point =>
    refine leaves.frame (fun v member ended => ?_) rfl rfl rfl still
    rcases List.mem_or_eq_of_mem_set member with before | rfl
    · exact ⟨v, before, rfl, ended⟩
    · exact ⟨task, List.mem_of_getElem? atI, rfl, Or.inr ⟨_, point⟩⟩

/-- The step lemma. -/
theorem Leaves.step (leaves : Leaves s) (sound : SoundSince boot s) (written : Written s event)
    (step : s.Step event t) : Leaves t := by
  cases sound.moves_of_step step with
  | crawls atI crawls => exact leaves.crawled sound atI written crawls
  | seen =>
    intro task member ended
    have known : task.peer ∈ s.knownPeers :=
      (sound.known _).mpr (List.mem_append_right _ (List.mem_map_of_mem member))
    exact (leaves task member ended).see known _ _ step
  | appends atI =>
    intro task member ended
    have gone := leaves task member ended
    exact { gone with unsent := gone.move atI (List.Subset.refl _) }
  | @inserts _ apn peers time atI =>
    intro task member ended
    have gone := leaves task member ended
    refine { gone with pending := ?_, unsent := gone.move atI (List.subset_cons_self _ _) }
    have other : task.peer ≠ apn := by
      intro same
      exact gone.unsent (List.mem_flatMap.mpr ⟨_, List.mem_of_getElem? atI, same ▸ List.mem_cons_self⟩)
    rw [Batcher.push, List.map_append, List.mem_append, List.map_singleton, List.mem_singleton]
    exact not_or.mpr ⟨gone.pending, other⟩
  | givesUp atI =>
    intro task member ended
    have gone := leaves task member ended
    exact { gone with unsent := gone.move atI (List.nil_subset _) }
  | spawns =>
    refine leaves.frame (fun task member ended => ?_) rfl rfl rfl (List.Subset.refl _)
    rcases List.mem_append.mp member with before | last
    · exact ⟨task, before, rfl, ended⟩
    · rw [List.mem_singleton.mp last] at ended
      simp [CrawlTask.Ended] at ended
  | flushesInserts flushes => exact fun task member ended => (leaves task member ended).flushInserts sound.rows flushes
  | flushesDeletes flushes => exact fun task member ended => (leaves task member ended).flushDeletes flushes
  | flushesVersions | flushesFirstOnlines => exact fun task member ended => (leaves task member ended).flushUpdates
  | restarts => exact fun task member => (List.not_mem_nil member).elim
  | waits | takes | flushesBans =>
    exact leaves.frame (fun task member ended => ⟨task, member, rfl, ended⟩) rfl rfl rfl (List.Subset.refl _)

/-- A peer becomes known when it is heard of, or by its row. -/
theorem SoundSince.known_of_step (sound : SoundSince boot s) (step : s.Step event t) (known : peer ∈ t.knownPeers) :
    peer ∈ s.knownPeers ∨ ∃ apns time, event = .seen apns time ∧ peer ∈ apns := by
  cases sound.moves_of_step step with
  | crawls _ crawls => cases crawls <;> exact Or.inl known
  | @seen apns time =>
    exact (notePeers_subset apns s.knownPeers peer known).symm.imp_right fun heard => ⟨apns, time, rfl, heard⟩
  | restarts loaded =>
    have row : peer ∈ s.peers := loaded.mem_iff.mp (List.mem_toFinset.mp known)
    exact Or.inl (sound.rowsKnown peer (List.mem_append_left _ (List.mem_append_left _ row)))
  | _ => exact Or.inl known

/-- The run lemma: a peer that no one hears of stays unknown. -/
theorem SoundSince.unknown_of_run (sound : SoundSince boot s) {events : List AddrManEvent}
    (run : Run (Guarded SlowRestart Step) s events t) (unknown : peer ∉ s.knownPeers)
    (unheard : ∀ apns time, .seen apns time ∈ events → peer ∉ apns) :
    peer ∉ t.knownPeers ∧ ∀ task ∈ t.tasks, task.peer ≠ peer := by
  have kept : Sound t ∧ peer ∉ t.knownPeers := by
    refine run.with_labels.invariant (P := fun s => Sound s ∧ peer ∉ s.knownPeers) ⟨⟨boot, sound⟩, unknown⟩ ?_
    rintro s event t ⟨⟨boot, sound⟩, unknown⟩ ⟨member, slow, step⟩
    refine ⟨Sound.step ⟨boot, sound⟩ slow step, fun known => ?_⟩
    rcases sound.known_of_step step known with before | ⟨apns, time, rfl, heard⟩
    · exact unknown before
    · exact unheard apns time member heard
  obtain ⟨⟨boot, sound⟩, unknown⟩ := kept
  refine ⟨unknown, fun task member same => unknown ?_⟩
  rw [← same, sound.known]
  exact List.mem_append_right _ (List.mem_map_of_mem member)

/-- When peers are deleted after their rows are written, a peer whose deletion is flushed has no row any more, and
after a restart it is neither known nor crawled before someone is heard to know it. -/
theorem banned_peers_leave {clock : Nat} {events : List AddrManEvent}
    (run : Run (Guarded (fun s event => SlowRestart s event ∧ Written s event) Step) (new clock) events s)
    {task : CrawlTask} (member : task ∈ s.tasks) (ended : task.Ended)
    (flushed : ∀ r ∈ s.deletePeers.pending, r.apn ≠ task.peer) :
    task.peer ∉ s.rowsToCome ∧
      ∀ seconds allPeers later t, Run (Guarded SlowRestart Step) s (.restart seconds allPeers :: later) t →
        (∀ apns time, .seen apns time ∈ later → task.peer ∉ apns) →
        task.peer ∉ t.knownPeers ∧ ∀ v ∈ t.tasks, v.peer ≠ task.peer := by
  have kept : Sound s ∧ Leaves s := by
    refine run.invariant (P := fun s => Sound s ∧ Leaves s)
      ⟨Sound.new clock, fun task member => (List.not_mem_nil member).elim⟩ ?_
    rintro s event t ⟨⟨boot, sound⟩, leaves⟩ ⟨⟨slow, written⟩, step⟩
    exact ⟨Sound.step ⟨boot, sound⟩ slow step, leaves.step sound written step⟩
  have gone := kept.2 task member ended
  have absent : task.peer ∉ s.peers := by
    intro inTable
    obtain ⟨r, pending, same⟩ := gone.deleted inTable
    exact flushed r pending same
  refine ⟨?_, fun seconds allPeers later t further unheard => ?_⟩
  · rw [rowsToCome, List.mem_append, List.mem_append]
    exact not_or.mpr ⟨not_or.mpr ⟨absent, gone.pending⟩, gone.unsent⟩
  · obtain ⟨restarted, ⟨slow, step⟩, rest⟩ := run_cons_iff.mp further
    obtain ⟨boot, sound⟩ := kept.1.step slow step
    refine sound.unknown_of_run rest ?_ unheard
    unfold Step next at step
    dsimp only at step
    split at step
    · next loaded =>
      cases step
      exact fun known => absent (loaded.mem_iff.mp (List.mem_toFinset.mp known))
    · cases step

/-- A peer that answers the handshake with a wrong checksum. -/
def wrongChecksum : Session := ⟨.error (InvalidChecksum.error ⟨1, 2⟩), 0⟩

/-- It is crawled once, deleted and banned. -/
def bannedOnce : List AddrManEvent :=
  [.seen [crawledPeer] 1, .appends 0, .inserts 0, .flushInserts 1, .takes, .spawns, .disconnects 0 wrongChecksum,
    .deletes 0, .bans 0, .flushDeletes 1, .flushBans 1]

theorem banned_peers_leave_checksum : crawledPeer ∉ (after next (new 0) bannedOnce).rowsToCome ∧
    crawledPeer ∉ (after next (after next (new 0) bannedOnce) [.restart 1 [], .waits 5]).knownPeers := by
  have run : Run (Guarded (fun s event => SlowRestart s event ∧ Written s event) Step) (new 0) bannedOnce
      (after next (new 0) bannedOnce) := Run.of_guarded_after (fun _ _ _ taken => taken) (by decide)
  have member : ⟨crawledPeer, (Backoff.new).crawlOnce crawledPeer wrongChecksum, .done⟩ ∈
      (after next (new 0) bannedOnce).tasks := List.mem_singleton.mpr rfl
  have spec := banned_peers_leave run member (Or.inl rfl) fun r pending => (List.not_mem_nil pending).elim
  refine ⟨spec.1, (spec.2 1 [] [.waits 5] _ ?_ fun apns time heard => ?_).1⟩
  · exact Run.of_guarded_after (fun _ _ _ taken => taken) (by decide)
  · simp at heard

end AddrMan

end Bitlens

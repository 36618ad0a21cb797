import Bitlens.PeerBatches
import Bitlens.Lib.Slots

namespace Bitlens
open Lib

/-! The functions of a step. -/

theorem notePeers_spec (apns : List AddressPortNetwork) (known : Finset AddressPortNetwork) :
    (notePeers apns known).1.Nodup ∧ (∀ peer ∈ (notePeers apns known).1, peer ∉ known) ∧
      ∀ peer, peer ∈ (notePeers apns known).2 ↔ peer ∈ (notePeers apns known).1 ∨ peer ∈ known := by
  induction apns generalizing known with
  | nil => simp [notePeers]
  | cons apn apns ih =>
    rw [notePeers]
    by_cases old : apn ∈ known
    · rw [if_pos old]
      exact ih known
    · rw [if_neg old]
      obtain ⟨distinct, fresh, whole⟩ := ih (insert apn known)
      refine ⟨List.nodup_cons.mpr ⟨fun member => ?_, distinct⟩, ?_, fun peer => ?_⟩
      · exact fresh apn member (Finset.mem_insert_self _ _)
      · intro peer member
        rcases List.mem_cons.mp member with same | later
        · rw [same]
          exact old
        · exact fun inKnown => fresh peer later (Finset.mem_insert_of_mem inKnown)
      · rw [whole, Finset.mem_insert, List.mem_cons]
        tauto

/-- What a call of `peers_seen` still has to add to `PEERS_TO_CHECK`. -/
def SeenTask.toCheck : SeenTask → List AddressPortNetwork
  | extending peers _ => peers
  | inserting _ _ => []

/-- What it still has to send to the batcher. -/
def SeenTask.toInsert : SeenTask → List AddressPortNetwork
  | extending peers _ => peers
  | inserting peers _ => peers

namespace AddrMan

variable {s t : AddrMan} {event : AddrManEvent} {boot : Nat}

/-- Where a peer is on its way to a crawl task. -/
def places (s : AddrMan) : List AddressPortNetwork :=
  s.seen.flatMap SeenTask.toCheck ++ s.peersToCheck ++ s.crawling ++ s.tasks.map (·.peer)

/-- The rows of `peers`, and those that are on their way there. -/
def rowsToCome (s : AddrMan) : List AddressPortNetwork :=
  s.peers ++ s.insertPeers.pending.map (·.apn) ++ s.seen.flatMap SeenTask.toInsert

def bansToCome (s : AddrMan) : List BanPeerRequest :=
  s.bannedPeers ++ s.banPeers.pending

/-- What holds in a process that began at the second `boot`. -/
structure SoundSince (boot : Nat) (s : AddrMan) : Prop where
  places : s.places.Nodup
  known : ∀ peer, peer ∈ s.knownPeers ↔ peer ∈ s.places
  rows : s.rowsToCome.Nodup
  rowsKnown : ∀ peer ∈ s.rowsToCome, peer ∈ s.knownPeers
  connected : ∀ peer, peer ∈ s.connectedPeers ↔ ∃ t ∈ s.tasks, t.peer = peer ∧ t.point.tracked = true
  asserts : ∀ t ∈ s.tasks, t.point ≠ .asserted
  booted : boot ≤ s.clock
  keys : (s.bansToCome.map BanPeerRequest.key).Nodup
  until_ : ∀ r ∈ s.bansToCome, r.bannedUntil = r.bannedAt + banPeerDuration ∧ r.bannedAt ≤ s.clock
  own : ∀ r ∈ s.bansToCome, boot ≤ r.bannedAt → ∃ t ∈ s.tasks, t.peer = r.apn ∧ t.point = .done
  stamped : ∀ t ∈ s.tasks, ∀ now, t.point = .banning now → boot ≤ now ∧ now ≤ s.clock

theorem SoundSince.peers (sound : SoundSince boot s) : (s.tasks.map (·.peer)).Nodup :=
  (List.nodup_append.mp sound.places).2.1

/-- A crawl task goes on, and the tracker with it. -/
theorem SoundSince.crawl (sound : SoundSince boot s) {i : Nat} {t u : CrawlTask} (atI : s.tasks[i]? = some t)
    (same : u.peer = t.peer) (asserts : u.point ≠ .asserted) {connected : Finset AddressPortNetwork}
    (tracked : t.peer ∈ connected ↔ u.point.tracked = true)
    (others : ∀ peer, peer ≠ t.peer → (peer ∈ connected ↔ peer ∈ s.connectedPeers))
    (kept : t.point = .done → u.point = .done)
    (stamped : ∀ now, u.point = .banning now → boot ≤ now ∧ now ≤ s.clock) :
    SoundSince boot { s with tasks := s.tasks.set i u, connectedPeers := connected } := by
  have names : (s.tasks.set i u).map (·.peer) = s.tasks.map (·.peer) := map_set_slot (·.peer) atI same
  have slots : ∀ v, v ∈ s.tasks.set i u ↔ v = u ∨ v ∈ s.tasks ∧ v.peer ≠ t.peer :=
    fun v => mem_set_slot (·.peer) sound.peers atI
  have unchanged : AddrMan.places { s with tasks := s.tasks.set i u, connectedPeers := connected } = s.places := by
    rw [AddrMan.places, AddrMan.places, names]
  refine { sound with
    places := unchanged ▸ sound.places
    known := unchanged ▸ sound.known
    connected := fun peer => ?_
    asserts := fun v member => ?_
    own := fun r member since => ?_
    stamped := fun v member => ?_ }
  · by_cases own : peer = t.peer
    · rw [own]
      refine tracked.trans ⟨fun reads => ⟨u, (slots u).mpr (Or.inl rfl), same, reads⟩, ?_⟩
      rintro ⟨v, member, name, reads⟩
      rcases (slots v).mp member with rfl | ⟨_, other⟩
      · exact reads
      · exact absurd name other
    · rw [others peer own, sound.connected]
      constructor
      · rintro ⟨v, member, rfl, reads⟩
        exact ⟨v, (slots v).mpr (Or.inr ⟨member, own⟩), rfl, reads⟩
      · rintro ⟨v, member, rfl, reads⟩
        rcases (slots v).mp member with rfl | ⟨before, _⟩
        · exact absurd same own
        · exact ⟨v, before, rfl, reads⟩
  · rcases (slots v).mp member with rfl | ⟨before, _⟩
    · exact asserts
    · exact sound.asserts v before
  · obtain ⟨v, before, name, done⟩ := sound.own r member since
    by_cases own : v.peer = t.peer
    · refine ⟨u, (slots u).mpr (Or.inl rfl), same.trans (own.symm.trans name), kept ?_⟩
      have one := List.inj_on_of_nodup_map sound.peers before (List.mem_of_getElem? atI) own
      exact one ▸ done
    · exact ⟨v, (slots v).mpr (Or.inr ⟨before, own⟩), name, done⟩
  · rcases (slots v).mp member with rfl | ⟨before, _⟩
    · exact stamped
    · exact sound.stamped v before

theorem SoundSince.tracked (sound : SoundSince boot s) {t : CrawlTask} (member : t ∈ s.tasks) :
    t.peer ∈ s.connectedPeers ↔ t.point.tracked = true := by
  rw [sound.connected]
  constructor
  · rintro ⟨v, inTasks, name, reads⟩
    rwa [List.inj_on_of_nodup_map sound.peers inTasks member name] at reads
  · exact fun reads => ⟨t, member, rfl, reads⟩

/-- A peer is banned once in a process, and in a later second than in an earlier process. -/
theorem SoundSince.ban (sound : SoundSince boot s) {i : Nat} {t : CrawlTask} (atI : s.tasks[i]? = some t) {now : Nat}
    (banning : t.point = .banning now) (reasons : List String) :
    SoundSince boot { s.moveTo i t .done with
      banPeers := s.banPeers.push ⟨t.peer, now, now + banPeerDuration, reasons⟩ } := by
  have member := List.mem_of_getElem? atI
  obtain ⟨since, past⟩ := sound.stamped t member now banning
  have absent : t.peer ∉ s.connectedPeers := by
    rw [sound.tracked member, banning]
    exact Bool.false_ne_true
  have moved : SoundSince boot (s.moveTo i t .done) := by
    refine sound.crawl (u := { t with point := .done }) atI rfl (fun h => by cases h)
      (iff_of_false absent fun h => by cases h) (fun _ _ => Iff.rfl) (fun _ => rfl) fun _ h => by cases h
  have whole : AddrMan.bansToCome { s.moveTo i t .done with
      banPeers := s.banPeers.push ⟨t.peer, now, now + banPeerDuration, reasons⟩ } =
        s.bansToCome ++ [⟨t.peer, now, now + banPeerDuration, reasons⟩] :=
    (List.append_assoc _ _ _).symm
  have self : ⟨t.peer, t.backoff, .done⟩ ∈ s.tasks.set i ⟨t.peer, t.backoff, .done⟩ :=
    (mem_set_slot (·.peer) sound.peers atI).mpr (Or.inl rfl)
  refine { moved with keys := ?_, until_ := ?_, own := ?_ }
  · rw [whole, List.map_append, List.map_singleton]
    refine List.nodup_append.mpr ⟨sound.keys, List.nodup_singleton _, ?_⟩
    rintro key inKeys _ last rfl
    obtain ⟨r, inBans, same⟩ := List.mem_map.mp inKeys
    rw [List.mem_singleton.mp last] at same
    obtain ⟨name, time⟩ := Prod.mk.inj same
    obtain ⟨shape, _⟩ := sound.until_ r inBans
    have again : r.bannedAt = now := by
      change r.bannedUntil = now + banPeerDuration at time
      omega
    obtain ⟨v, inTasks, name', done⟩ := sound.own r inBans (again ▸ since)
    rw [List.inj_on_of_nodup_map sound.peers inTasks member (name'.trans name), banning] at done
    cases done
  · rw [whole]
    refine List.forall_mem_append.mpr ⟨sound.until_, fun r last => ?_⟩
    rw [List.mem_singleton.mp last]
    exact ⟨rfl, past⟩
  · rw [whole]
    refine List.forall_mem_append.mpr ⟨moved.own, fun r last _ => ?_⟩
    rw [List.mem_singleton.mp last]
    exact ⟨_, self, rfl, rfl⟩

theorem SoundSince.connect (sound : SoundSince boot s) {i : Nat} {t : CrawlTask} (atI : s.tasks[i]? = some t)
    (waiting : t.point = .waiting) (services : UInt64) (blockHeight : UInt32) (userAgent : Bytes) :
    SoundSince boot { s.moveTo i t (.greeting services blockHeight userAgent) with
      connectedPeers := insert t.peer s.connectedPeers } := by
  refine sound.crawl (u := { t with point := .greeting services blockHeight userAgent }) atI rfl (fun h => by cases h)
    (iff_of_true (Finset.mem_insert_self _ _) rfl) ?_ ?_ (fun _ h => by cases h)
  · intro peer other
    rw [Finset.mem_insert, or_iff_right other]
  · intro done
    rw [waiting] at done
    cases done

/-- The version of a peer is noted, and the task reads from it. -/
theorem SoundSince.greet (sound : SoundSince boot s) {i : Nat} {t : CrawlTask} (atI : s.tasks[i]? = some t)
    (reads : t.point.tracked = true) : SoundSince boot (s.moveTo i t .connected) := by
  have member := (sound.tracked (List.mem_of_getElem? atI)).mpr reads
  refine sound.crawl (u := { t with point := .connected }) atI rfl (fun h => by cases h) (iff_of_true member rfl)
    (fun _ _ => Iff.rfl) ?_ (fun _ h => by cases h)
  intro done
  rw [done] at reads
  cases reads

/-- The task drops its `TrackedConnection`, and the tracker forgets the peer. -/
theorem SoundSince.leave (sound : SoundSince boot s) {i : Nat} {t u : CrawlTask} (atI : s.tasks[i]? = some t)
    (same : u.peer = t.peer) (reads : t.point.tracked = true)
    (goes : u.point = .waiting ∨ u.point = .deleting ∨ u.point = .dead ∨ u.point = .panicked) :
    SoundSince boot { s with tasks := s.tasks.set i u, connectedPeers := s.connectedPeers.erase t.peer } := by
  have apart : u.point.tracked = false ∧ u.point ≠ .asserted ∧ ∀ now, u.point ≠ .banning now := by
    rcases goes with at_ | at_ | at_ | at_ <;> simp [at_, CrawlPoint.tracked]
  refine sound.crawl atI same apart.2.1 (iff_of_false (Finset.notMem_erase _ _) ?_) ?_ ?_
    fun now h => absurd h (apart.2.2 now)
  · rw [apart.1]
    exact Bool.false_ne_true
  · intro peer other
    rw [Finset.mem_erase, and_iff_right other]
  · intro done
    rw [done] at reads
    cases reads

/-- A task that is not tracked goes on to a point where it is not tracked either. -/
theorem SoundSince.stay (sound : SoundSince boot s) {i : Nat} {t u : CrawlTask} (atI : s.tasks[i]? = some t)
    (same : u.peer = t.peer) (from_ : t.point.tracked = false) (before : t.point ≠ .done)
    (goes : u.point = .waiting ∨ u.point = .deleting ∨ u.point = .banning s.clock ∨ u.point = .panicked) :
    SoundSince boot { s with tasks := s.tasks.set i u } := by
  have apart : u.point.tracked = false ∧ u.point ≠ .asserted := by
    rcases goes with at_ | at_ | at_ | at_ <;> simp [at_, CrawlPoint.tracked]
  have absent : t.peer ∉ s.connectedPeers := by
    rw [sound.tracked (List.mem_of_getElem? atI), from_]
    exact Bool.false_ne_true
  refine sound.crawl atI same apart.2 (iff_of_false absent ?_) (fun _ _ => Iff.rfl) (fun done => absurd done before)
    fun now stamp => ?_
  · rw [apart.1]
    exact Bool.false_ne_true
  · have time : now = s.clock := by
      rcases goes with at_ | at_ | at_ | at_
      · cases at_.symm.trans stamp
      · cases at_.symm.trans stamp
      · cases at_.symm.trans stamp
        rfl
      · cases at_.symm.trans stamp
    rw [time]
    exact ⟨sound.booted, le_rfl⟩

theorem SoundSince.wait (sound : SoundSince boot s) (seconds : Nat) :
    SoundSince boot { s with clock := s.clock + seconds } := by
  have later := Nat.le_add_right s.clock seconds
  refine { sound with
    booted := sound.booted.trans later
    until_ := fun r member => ?_
    stamped := fun t member now stamp => ?_ }
  · exact ⟨(sound.until_ r member).1, (sound.until_ r member).2.trans later⟩
  · exact ⟨(sound.stamped t member now stamp).1, (sound.stamped t member now stamp).2.trans later⟩

/-- New peers get a place, and a row that is on its way. -/
theorem SoundSince.see (sound : SoundSince boot s) {new : List AddressPortNetwork} {known : Finset AddressPortNetwork}
    (distinct : new.Nodup) (fresh : ∀ peer ∈ new, peer ∉ s.knownPeers)
    (whole : ∀ peer, peer ∈ known ↔ peer ∈ new ∨ peer ∈ s.knownPeers) (time : Nat) :
    SoundSince boot { s with knownPeers := known, seen := s.seen ++ [.extending new time] } := by
  have places : (AddrMan.places { s with knownPeers := known, seen := s.seen ++ [.extending new time] }).Perm
      (new ++ s.places) := by
    refine List.perm_iff_count.mpr fun peer => ?_
    simp only [AddrMan.places, SeenTask.toCheck, List.flatMap_append, List.flatMap_singleton, List.count_append]
    omega
  have rows : (AddrMan.rowsToCome { s with knownPeers := known, seen := s.seen ++ [.extending new time] }).Perm
      (new ++ s.rowsToCome) := by
    refine List.perm_iff_count.mpr fun peer => ?_
    simp only [AddrMan.rowsToCome, SeenTask.toInsert, List.flatMap_append, List.flatMap_singleton, List.count_append]
    omega
  refine { sound with
    places := places.nodup_iff.mpr (List.nodup_append.mpr ⟨distinct, sound.places, ?_⟩)
    known := fun peer => ?_
    rows := rows.nodup_iff.mpr (List.nodup_append.mpr ⟨distinct, sound.rows, ?_⟩)
    rowsKnown := fun peer member => ?_ }
  · rintro peer inNew _ inPlaces rfl
    exact fresh peer inNew ((sound.known peer).mpr inPlaces)
  · rw [whole, sound.known, places.mem_iff, List.mem_append]
  · rintro peer inNew _ inRows rfl
    exact fresh peer inNew (sound.rowsKnown peer inRows)
  · exact (whole peer).mpr ((List.mem_append.mp (rows.mem_iff.mp member)).imp_right (sound.rowsKnown peer))

/-- A peer that is only moved from one list to another keeps its place, and no row comes twice. -/
theorem SoundSince.rearrange (sound : SoundSince boot s) {seen : List SeenTask}
    {toCheck crawling : List AddressPortNetwork}
    {inserts : Batcher InsertPeerRequest} {peers : List AddressPortNetwork}
    (places : (seen.flatMap SeenTask.toCheck ++ toCheck ++ crawling).Perm
      (s.seen.flatMap SeenTask.toCheck ++ s.peersToCheck ++ s.crawling))
    (rows : (peers ++ inserts.pending.map (·.apn) ++ seen.flatMap SeenTask.toInsert).Subperm s.rowsToCome) :
    SoundSince boot { s with
      seen := seen, peersToCheck := toCheck, crawling := crawling, insertPeers := inserts, peers := peers } := by
  have whole : (AddrMan.places { s with
      seen := seen, peersToCheck := toCheck, crawling := crawling, insertPeers := inserts, peers := peers }).Perm
        s.places := places.append_right _
  have distinct : (peers ++ inserts.pending.map (·.apn) ++ seen.flatMap SeenTask.toInsert).Nodup := by
    obtain ⟨_, same, fewer⟩ := rows
    exact same.nodup_iff.mp (sound.rows.sublist fewer)
  exact { sound with
    places := whole.nodup_iff.mpr sound.places
    known := fun peer => (sound.known peer).trans whole.mem_iff.symm
    rows := distinct
    rowsKnown := fun peer member => sound.rowsKnown peer (rows.subset member) }

theorem SoundSince.extend (sound : SoundSince boot s) {i : Nat} {peers : List AddressPortNetwork} {time : Nat}
    (atI : s.seen[i]? = some (.extending peers time)) :
    SoundSince boot
      { s with peersToCheck := s.peersToCheck ++ peers, seen := s.seen.set i (.inserting peers time) } := by
  obtain ⟨front, back, whole, replaced⟩ := exists_slot atI
  refine sound.rearrange (List.perm_iff_count.mpr fun peer => ?_) (List.Perm.of_eq ?_).subperm
  · rw [replaced, whole]
    simp only [List.flatMap_append, List.flatMap_cons, SeenTask.toCheck, List.count_append, List.count_nil]
    omega
  · rw [rowsToCome, replaced, whole]
    simp only [List.flatMap_append, List.flatMap_cons, SeenTask.toInsert]

theorem SoundSince.insert (sound : SoundSince boot s) {i : Nat} {apn : AddressPortNetwork}
    {peers : List AddressPortNetwork} {time : Nat} (atI : s.seen[i]? = some (.inserting (apn :: peers) time)) :
    SoundSince boot { s with
      insertPeers := s.insertPeers.push ⟨apn, time⟩, seen := s.seen.set i (.inserting peers time) } := by
  obtain ⟨front, back, whole, replaced⟩ := exists_slot atI
  refine sound.rearrange (List.Perm.of_eq ?_) (List.perm_iff_count.mpr fun peer => ?_).subperm
  · rw [replaced, whole]
    simp only [List.flatMap_append, List.flatMap_cons, SeenTask.toCheck]
  · rw [rowsToCome, replaced, whole]
    simp only [Batcher.push, List.map_append, List.map_singleton, List.flatMap_append, List.flatMap_cons,
      SeenTask.toInsert, List.count_append, List.count_cons, List.count_nil]
    omega

/-- A call of `peers_seen` panics at a closed batcher, and the rows it still had are lost. -/
theorem SoundSince.giveUp (sound : SoundSince boot s) {i : Nat} {peers : List AddressPortNetwork} {time : Nat}
    (atI : s.seen[i]? = some (.inserting peers time)) :
    SoundSince boot { s with seen := s.seen.set i (.inserting [] time) } := by
  obtain ⟨front, back, whole, replaced⟩ := exists_slot atI
  refine sound.rearrange (List.Perm.of_eq ?_) (List.Sublist.subperm ?_)
  · rw [replaced, whole]
    simp only [List.flatMap_append, List.flatMap_cons, SeenTask.toCheck]
  · rw [rowsToCome, replaced, whole]
    simp only [List.flatMap_append, List.flatMap_cons, SeenTask.toInsert, List.nil_append]
    exact (List.Sublist.refl _).append ((List.Sublist.refl _).append (List.sublist_append_right _ _))

/-- A taken peer gets a task of its own. -/
theorem SoundSince.spawn (sound : SoundSince boot s) {peer : AddressPortNetwork} {peers : List AddressPortNetwork}
    (taken : s.crawling = peer :: peers) :
    SoundSince boot { s with crawling := peers, tasks := s.tasks ++ [⟨peer, .new, .waiting⟩] } := by
  have places : (AddrMan.places { s with crawling := peers, tasks := s.tasks ++ [⟨peer, .new, .waiting⟩] }).Perm
      s.places := by
    refine List.perm_iff_count.mpr fun other => ?_
    simp only [AddrMan.places, taken, List.map_append, List.map_singleton, List.count_append, List.count_cons,
      List.count_nil]
    omega
  refine { sound with
    places := places.nodup_iff.mpr sound.places
    known := fun other => (sound.known other).trans places.mem_iff.symm
    connected := fun other => ?_
    asserts := List.forall_mem_append.mpr ⟨sound.asserts, by simp⟩
    own := fun r member since => ?_
    stamped := List.forall_mem_append.mpr ⟨sound.stamped, by simp⟩ }
  · rw [sound.connected]
    simp [CrawlPoint.tracked]
  · obtain ⟨t, inTasks, done⟩ := sound.own r member since
    exact ⟨t, List.mem_append_left _ inTasks, done⟩

theorem SoundSince.flushDeletes (sound : SoundSince boot s) {count : Nat} {b : Batcher DeletePeerRequest}
    {rows : List AddressPortNetwork} {poisoned : Bool}
    (flushes : Batcher.Flushes deletePeerRows count s.poisoned s.deletePeers s.peers b rows poisoned) :
    SoundSince boot { s with deletePeers := b, peers := rows, poisoned := poisoned } := by
  have fewer := (flushes.deleted.append_right (s.insertPeers.pending.map (·.apn))).append_right
    (s.seen.flatMap SeenTask.toInsert)
  exact { sound with
    rows := sound.rows.sublist fewer
    rowsKnown := fun peer member => sound.rowsKnown peer (fewer.subset member) }

theorem bansToCome_of_flushes (keys : (s.bansToCome.map BanPeerRequest.key).Nodup) {count : Nat}
    {b : Batcher BanPeerRequest} {rows : List BanPeerRequest} {poisoned : Bool}
    (flushes : Batcher.Flushes insertBannedPeer count s.poisoned s.banPeers s.bannedPeers b rows poisoned) :
    rows ++ b.pending = s.bansToCome ∧ (s.poisoned = false → b.running = true ∧ poisoned = false) := by
  rw [bansToCome, ← List.map_id s.banPeers.pending] at keys
  obtain ⟨whole, runs⟩ := Batcher.Flushes.insertKeyed keys flushes
  rw [List.map_id, List.map_id] at whole
  exact ⟨whole, runs⟩

theorem rowsToCome_of_flushes (distinct : s.rowsToCome.Nodup) {count : Nat} {b : Batcher InsertPeerRequest}
    {rows : List AddressPortNetwork} {poisoned : Bool}
    (flushes : Batcher.Flushes insertPeerRow count s.poisoned s.insertPeers s.peers b rows poisoned) :
    rows ++ b.pending.map (·.apn) = s.peers ++ s.insertPeers.pending.map (·.apn) ∧
      (s.poisoned = false → b.running = true ∧ poisoned = false) := by
  refine Batcher.Flushes.insertKeyed ?_ flushes
  rw [List.map_id]
  exact (List.nodup_append.mp distinct).1

theorem SoundSince.flushBans (sound : SoundSince boot s) {count : Nat} {b : Batcher BanPeerRequest}
    {rows : List BanPeerRequest} {poisoned : Bool}
    (flushes : Batcher.Flushes insertBannedPeer count s.poisoned s.banPeers s.bannedPeers b rows poisoned) :
    SoundSince boot { s with banPeers := b, bannedPeers := rows, poisoned := poisoned } := by
  have same : AddrMan.bansToCome { s with banPeers := b, bannedPeers := rows, poisoned := poisoned } = s.bansToCome :=
    (bansToCome_of_flushes sound.keys flushes).1
  exact { sound with
    keys := same ▸ sound.keys
    until_ := same ▸ sound.until_
    own := same ▸ sound.own }

theorem SoundSince.flushInserts (sound : SoundSince boot s) {count : Nat} {b : Batcher InsertPeerRequest}
    {rows : List AddressPortNetwork} {poisoned : Bool}
    (flushes : Batcher.Flushes insertPeerRow count s.poisoned s.insertPeers s.peers b rows poisoned) :
    SoundSince boot { s with insertPeers := b, peers := rows, poisoned := poisoned } := by
  have moved : SoundSince boot { s with insertPeers := b, peers := rows } := by
    refine sound.rearrange (.refl _) (List.Perm.of_eq ?_).subperm
    rw [(rowsToCome_of_flushes sound.rows flushes).1]
    rfl
  exact { moved with places := moved.places }

theorem SoundSince.flushUpdates (sound : SoundSince boot s) {b : Batcher UpdatePeerFromVersionRequest}
    {b' : Batcher UpdatePeerFirstOnlineRequest} {poisoned : Bool} :
    SoundSince boot { s with updateVersions := b, updateFirstOnlines := b', poisoned := poisoned } :=
  { sound with places := sound.places }

/-- A new process knows the peers of the table, and begins in a later second. -/
theorem SoundSince.restart (sound : SoundSince boot s) {seconds : Nat} (later : 0 < seconds)
    {allPeers : List AddressPortNetwork} (loaded : allPeers.Perm s.peers) :
    SoundSince (s.clock + seconds) (started (s.clock + seconds) allPeers s.peers s.bannedPeers) := by
  have distinct : s.peers.Nodup := (List.nodup_append.mp (List.nodup_append.mp sound.rows).1).1
  have places : (started (s.clock + seconds) allPeers s.peers s.bannedPeers).places = allPeers := by
    simp [AddrMan.places, started]
  have rows : (started (s.clock + seconds) allPeers s.peers s.bannedPeers).rowsToCome = s.peers := by
    simp [rowsToCome, started, Batcher.new]
  have bans : (started (s.clock + seconds) allPeers s.peers s.bannedPeers).bansToCome = s.bannedPeers := by
    simp [bansToCome, started, Batcher.new]
  have fewer : s.bannedPeers.Sublist s.bansToCome := List.sublist_append_left _ _
  refine ⟨?_, fun peer => ?_, ?_, fun peer member => ?_, fun peer => ?_, fun t member => (List.not_mem_nil member).elim,
    le_rfl, ?_, ?_, ?_, fun t member => (List.not_mem_nil member).elim⟩
  · rw [places]
    exact loaded.nodup_iff.mpr distinct
  · rw [places]
    exact List.mem_toFinset
  · rw [rows]
    exact distinct
  · rw [rows] at member
    exact List.mem_toFinset.mpr (loaded.mem_iff.mpr member)
  · simp [started]
  · rw [bans]
    exact sound.keys.sublist (fewer.map _)
  · rw [bans]
    intro r member
    obtain ⟨shape, past⟩ := sound.until_ r (fewer.subset member)
    exact ⟨shape, past.trans (Nat.le_add_right _ _)⟩
  · rw [bans]
    intro r member since
    have past := (sound.until_ r (fewer.subset member)).2
    omega

/-- A restart takes at least a second. -/
def SlowRestart (_ : AddrMan) : AddrManEvent → Prop
  | .restart seconds _ => 0 < seconds
  | _ => True

/-- The process of a state began at some second. -/
def Sound (s : AddrMan) : Prop := ∃ boot, SoundSince boot s

theorem Sound.new (clock : Nat) : Sound (new clock) := by
  refine ⟨clock, by simp [places, AddrMan.new, started], ?_, ?_, ?_, ?_, ?_, le_rfl, ?_, ?_, ?_, ?_⟩ <;>
    simp [places, rowsToCome, bansToCome, AddrMan.new, started, Batcher.new]

/-- The steps of a crawl task when no assertion fails. A task panics at a closed batcher. -/
inductive Crawls (s : AddrMan) (i : Nat) (task : CrawlTask) : AddrManEvent → AddrMan → Prop
  | connects {services blockHeight userAgent} : task.point = .waiting →
      Crawls s i task (.connects i services blockHeight userAgent)
        { s.moveTo i task (.greeting services blockHeight userAgent) with
          connectedPeers := insert task.peer s.connectedPeers }
  | greets {sent services blockHeight userAgent} : task.point = .greeting services blockHeight userAgent →
      Crawls s i task (.greets i sent) { s.moveTo i task .connected with
        updateVersions := s.updateVersions.push ⟨task.peer, services, blockHeight, userAgent⟩
        updateFirstOnlines := s.updateFirstOnlines.push ⟨task.peer, s.clock⟩ }
  | stops {sent versions firstOnlines} : task.point.tracked = true →
      (s.updateVersions.running = true → s.updateFirstOnlines.running = false) →
      Crawls s i task (.greets i sent) { s.moveTo i task .panicked with
        connectedPeers := s.connectedPeers.erase task.peer
        updateVersions := versions
        updateFirstOnlines := firstOnlines }
  | fails {session} : task.point = .waiting →
      Crawls s i task (.disconnects i session) { s with tasks := s.tasks.set i (task.evaluated session) }
  | leaves {session} : task.point = .connected → Crawls s i task (.disconnects i session) { s with
      tasks := s.tasks.set i (task.evaluated session)
      connectedPeers := s.connectedPeers.erase task.peer }
  | dies : task.point = .connected →
      Crawls s i task (.dies i) { s.moveTo i task .dead with connectedPeers := s.connectedPeers.erase task.peer }
  | deletes : task.point = .deleting → Crawls s i task (.deletes i)
      { s.moveTo i task (.banning s.clock) with deletePeers := s.deletePeers.push ⟨task.peer⟩ }
  | cannotDelete : task.point = .deleting → s.deletePeers.running = false →
      Crawls s i task (.deletes i) (s.moveTo i task .panicked)
  | bans {now} : task.point = .banning now → Crawls s i task (.bans i) { s.moveTo i task .done with
      banPeers := s.banPeers.push ⟨task.peer, now, now + banPeerDuration, task.backoff.failReasons⟩ }
  | cannotBan {now} : task.point = .banning now → s.banPeers.running = false →
      Crawls s i task (.bans i) (s.moveTo i task .panicked)

end AddrMan

/-- The crawl task that takes the step. -/
def AddrManEvent.crawlTask : AddrManEvent → Option Nat
  | connects i _ _ _ | greets i _ | disconnects i _ | dies i | deletes i | bans i => some i
  | _ => none

namespace AddrMan

variable {s t : AddrMan} {event : AddrManEvent} {boot : Nat}

theorem SoundSince.dropped (sound : SoundSince boot s) {i : Nat} {task u : CrawlTask} (atI : s.tasks[i]? = some task)
    (reads : task.point.tracked = true) (dropped : s.dropTracked i task u = some t) :
    t = { s with tasks := s.tasks.set i u, connectedPeers := s.connectedPeers.erase task.peer } := by
  rw [dropTracked, if_pos ((sound.tracked (List.mem_of_getElem? atI)).mpr reads)] at dropped
  cases dropped
  rfl

theorem SoundSince.crawls_of_step (sound : SoundSince boot s) {i : Nat} (step : s.Step event t)
    (own : event.crawlTask = some i) : ∃ task, s.tasks[i]? = some task ∧ Crawls s i task event t := by
  unfold Step next at step
  cases event with
  | connects j services blockHeight userAgent =>
    cases own
    dsimp only at step
    split at step
    · next task atI =>
      split at step
      · next ready =>
        have absent : task.peer ∉ s.connectedPeers := by
          rw [sound.tracked (List.mem_of_getElem? atI), ready.1]
          decide
        rw [if_neg absent] at step
        cases step
        exact ⟨task, atI, .connects ready.1⟩
      · cases step
    · cases step
  | greets j sent =>
    cases own
    dsimp only at step
    split at step
    · next task atI =>
      split at step
      · next services blockHeight userAgent point =>
        split at step
        · cases step
          exact ⟨task, atI, .greets point⟩
        · next closed =>
          have reads : task.point.tracked = true := by rw [point]; rfl
          have stopped : s.updateVersions.running = true → s.updateFirstOnlines.running = false :=
            fun runs => Bool.eq_false_of_not_eq_true fun both => closed ⟨runs, both⟩
          unfold dropTracked at step
          rw [if_pos ((sound.tracked (List.mem_of_getElem? atI)).mpr reads)] at step
          cases step
          exact ⟨task, atI, .stops reads stopped⟩
      · cases step
    · cases step
  | disconnects j session =>
    cases own
    dsimp only at step
    split at step
    · next task _ atI _ =>
      split at step
      · next waiting =>
        cases step
        exact ⟨task, atI, .fails waiting⟩
      · cases step
    · next task _ atI _ =>
      split at step
      · next reads =>
        rw [sound.dropped atI (by rw [reads]; rfl) step]
        exact ⟨task, atI, .leaves reads⟩
      · cases step
    · cases step
  | dies j =>
    cases own
    dsimp only at step
    split at step
    · next task atI =>
      split at step
      · next reads =>
        rw [sound.dropped atI (by rw [reads]; rfl) step]
        exact ⟨task, atI, .dies reads⟩
      · cases step
    · cases step
  | deletes j =>
    cases own
    dsimp only at step
    split at step
    · next task atI =>
      split at step
      · next ready =>
        split at step
        · cases step
          exact ⟨task, atI, .deletes ready⟩
        · next closed =>
          cases step
          exact ⟨task, atI, .cannotDelete ready (Bool.eq_false_of_not_eq_true closed)⟩
      · cases step
    · cases step
  | bans j =>
    cases own
    dsimp only at step
    split at step
    · next task atI =>
      split at step
      · next now point =>
        split at step
        · cases step
          exact ⟨task, atI, .bans point⟩
        · next closed =>
          cases step
          exact ⟨task, atI, .cannotBan point (Bool.eq_false_of_not_eq_true closed)⟩
      · cases step
    · cases step
  | _ => cases own

/-- The steps of the address manager when no assertion fails. -/
inductive Moves (s : AddrMan) : AddrManEvent → AddrMan → Prop
  | crawls {event t i task} : s.tasks[i]? = some task → Crawls s i task event t → Moves s event t
  | waits {seconds} : Moves s (.waits seconds) { s with clock := s.clock + seconds }
  | seen {apns time} : Moves s (.seen apns time) { s with
      knownPeers := (notePeers apns s.knownPeers).2
      seen := if (notePeers apns s.knownPeers).1.isEmpty then s.seen
        else s.seen ++ [.extending (notePeers apns s.knownPeers).1 time] }
  | appends {i peers time} : s.seen[i]? = some (.extending peers time) → Moves s (.appends i) { s with
      peersToCheck := s.peersToCheck ++ peers
      seen := s.seen.set i (.inserting peers time) }
  | inserts {i apn peers time} : s.seen[i]? = some (.inserting (apn :: peers) time) → Moves s (.inserts i) { s with
      insertPeers := s.insertPeers.push ⟨apn, time⟩
      seen := s.seen.set i (.inserting peers time) }
  | givesUp {i apn peers time} : s.seen[i]? = some (.inserting (apn :: peers) time) → s.insertPeers.running = false →
      Moves s (.inserts i) { s with seen := s.seen.set i (.inserting [] time) }
  | takes : s.crawling = [] → Moves s .takes { s with crawling := s.peersToCheck, peersToCheck := [] }
  | spawns {peer peers} : s.crawling = peer :: peers →
      Moves s .spawns { s with crawling := peers, tasks := s.tasks ++ [⟨peer, .new, .waiting⟩] }
  | flushesInserts {count b rows poisoned} :
      Batcher.Flushes insertPeerRow count s.poisoned s.insertPeers s.peers b rows poisoned →
        Moves s (.flushInserts count) { s with insertPeers := b, peers := rows, poisoned := poisoned }
  | flushesDeletes {count b rows poisoned} :
      Batcher.Flushes deletePeerRows count s.poisoned s.deletePeers s.peers b rows poisoned →
        Moves s (.flushDeletes count) { s with deletePeers := b, peers := rows, poisoned := poisoned }
  | flushesBans {count b rows poisoned} :
      Batcher.Flushes insertBannedPeer count s.poisoned s.banPeers s.bannedPeers b rows poisoned →
        Moves s (.flushBans count) { s with banPeers := b, bannedPeers := rows, poisoned := poisoned }
  | flushesVersions {count b poisoned} :
      Batcher.Flushes updatePeerFromVersion count s.poisoned s.updateVersions s.peers b s.peers poisoned →
        Moves s (.flushVersions count) { s with updateVersions := b, poisoned := poisoned }
  | flushesFirstOnlines {count b poisoned} :
      Batcher.Flushes updatePeerFirstOnline count s.poisoned s.updateFirstOnlines s.peers b s.peers poisoned →
        Moves s (.flushFirstOnlines count) { s with updateFirstOnlines := b, poisoned := poisoned }
  | restarts {seconds allPeers} : allPeers.Perm s.peers →
      Moves s (.restart seconds allPeers) (started (s.clock + seconds) allPeers s.peers s.bannedPeers)

theorem SoundSince.moves_of_step (sound : SoundSince boot s) (step : s.Step event t) : Moves s event t := by
  cases event with
  | connects i _ _ _ | greets i _ | disconnects i _ | dies i | deletes i | bans i =>
    obtain ⟨task, atI, crawls⟩ := sound.crawls_of_step (i := i) step rfl
    exact .crawls atI crawls
  | waits seconds =>
    cases step
    exact .waits
  | seen apns time =>
    cases step
    exact .seen
  | appends i =>
    unfold Step next at step
    dsimp only at step
    split at step
    · next atI =>
      cases step
      exact .appends atI
    · cases step
  | inserts i =>
    unfold Step next at step
    dsimp only at step
    split at step
    · next atI =>
      split at step
      · cases step
        exact .inserts atI
      · next closed =>
        cases step
        exact .givesUp atI (Bool.eq_false_of_not_eq_true closed)
    · cases step
  | takes =>
    unfold Step next at step
    dsimp only at step
    split at step
    · next empty =>
      cases step
      exact .takes empty
    · cases step
  | spawns =>
    unfold Step next at step
    dsimp only at step
    split at step
    · next taken =>
      cases step
      exact .spawns taken
    · cases step
  | flushInserts count =>
    obtain ⟨⟨b, rows, poisoned⟩, flushed, same⟩ := Option.map_eq_some_iff.mp step
    cases same
    exact .flushesInserts (Batcher.flushes_of_flush flushed)
  | flushDeletes count =>
    obtain ⟨⟨b, rows, poisoned⟩, flushed, same⟩ := Option.map_eq_some_iff.mp step
    cases same
    exact .flushesDeletes (Batcher.flushes_of_flush flushed)
  | flushBans count =>
    obtain ⟨⟨b, rows, poisoned⟩, flushed, same⟩ := Option.map_eq_some_iff.mp step
    cases same
    exact .flushesBans (Batcher.flushes_of_flush flushed)
  | flushVersions count =>
    obtain ⟨⟨b, rows, poisoned⟩, flushed, same⟩ := Option.map_eq_some_iff.mp step
    cases same
    have flushes := Batcher.flushes_of_flush flushed
    cases flushes.updated updatePeerFromVersion_keeps
    exact .flushesVersions flushes
  | flushFirstOnlines count =>
    obtain ⟨⟨b, rows, poisoned⟩, flushed, same⟩ := Option.map_eq_some_iff.mp step
    cases same
    have flushes := Batcher.flushes_of_flush flushed
    cases flushes.updated updatePeerFirstOnline_keeps
    exact .flushesFirstOnlines flushes
  | restart seconds allPeers =>
    unfold Step next at step
    dsimp only at step
    split at step
    · next loaded =>
      cases step
      exact .restarts loaded
    · cases step

theorem evaluated_point (task : CrawlTask) (session : Session) :
    (task.evaluated session).point = .waiting ∨ (task.evaluated session).point = .deleting := by
  unfold CrawlTask.evaluated
  dsimp only
  split
  · exact Or.inl rfl
  · exact Or.inr rfl

theorem SoundSince.crawled (sound : SoundSince boot s) {i : Nat} {task : CrawlTask} (atI : s.tasks[i]? = some task)
    (crawls : Crawls s i task event t) : SoundSince boot t := by
  cases crawls with
  | connects waiting => exact sound.connect atI waiting _ _ _
  | greets point =>
    have moved := sound.greet atI (by rw [point]; rfl)
    exact { moved with places := moved.places }
  | stops reads =>
    have moved := sound.leave (u := { task with point := .panicked }) atI rfl reads (by simp)
    exact { moved with places := moved.places }
  | fails waiting =>
    refine sound.stay atI rfl (by rw [waiting]; rfl) (by simp [waiting]) ?_
    exact (evaluated_point task _).imp_right Or.inl
  | leaves reads =>
    refine sound.leave atI rfl (by rw [reads]; rfl) ?_
    exact (evaluated_point task _).imp_right Or.inl
  | dies reads => exact sound.leave atI rfl (by rw [reads]; rfl) (by simp)
  | deletes ready =>
    have moved := sound.stay (u := { task with point := .banning s.clock }) atI rfl (by rw [ready]; rfl)
      (by simp [ready]) (by simp)
    exact { moved with places := moved.places }
  | cannotDelete ready => exact sound.stay atI rfl (by rw [ready]; rfl) (by simp [ready]) (by simp)
  | bans point => exact sound.ban atI point _
  | cannotBan point => exact sound.stay atI rfl (by rw [point]; rfl) (by simp [point]) (by simp)

/-- `peers_seen` begins a task only when a peer is new. -/
theorem SoundSince.note (sound : SoundSince boot s) (apns : List AddressPortNetwork) (time : Nat) :
    SoundSince boot { s with
      knownPeers := (notePeers apns s.knownPeers).2
      seen := if (notePeers apns s.knownPeers).1.isEmpty then s.seen
        else s.seen ++ [.extending (notePeers apns s.knownPeers).1 time] } := by
  obtain ⟨distinct, fresh, whole⟩ := notePeers_spec apns s.knownPeers
  split
  · next none_ =>
    have same : (notePeers apns s.knownPeers).2 = s.knownPeers :=
      Finset.ext fun peer => by simp [whole, List.isEmpty_iff.mp none_]
    rw [same]
    exact sound
  · exact sound.see distinct fresh whole time

/-- The step lemma. -/
theorem Sound.step (sound : Sound s) (slow : SlowRestart s event) (step : s.Step event t) : Sound t := by
  obtain ⟨boot, sound⟩ := sound
  cases sound.moves_of_step step with
  | crawls atI crawls => exact ⟨boot, sound.crawled atI crawls⟩
  | waits => exact ⟨boot, sound.wait _⟩
  | seen => exact ⟨boot, sound.note _ _⟩
  | appends atI => exact ⟨boot, sound.extend atI⟩
  | inserts atI => exact ⟨boot, sound.insert atI⟩
  | givesUp atI => exact ⟨boot, sound.giveUp atI⟩
  | takes empty =>
    refine ⟨boot, sound.rearrange (List.Perm.of_eq ?_) (List.Subperm.refl _)⟩
    rw [empty, List.append_nil, List.append_nil]
  | spawns taken => exact ⟨boot, sound.spawn taken⟩
  | flushesInserts flushes => exact ⟨boot, sound.flushInserts flushes⟩
  | flushesDeletes flushes => exact ⟨boot, sound.flushDeletes flushes⟩
  | flushesBans flushes => exact ⟨boot, sound.flushBans flushes⟩
  | flushesVersions | flushesFirstOnlines => exact ⟨boot, sound.flushUpdates⟩
  | restarts loaded => exact ⟨_, sound.restart slow loaded⟩

end AddrMan

end Bitlens

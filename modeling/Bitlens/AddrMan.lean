import Mathlib.Tactic
import Bitlens.Crawl
import Bitlens.Lib.Run

namespace Bitlens
open Lib

/-- Two weeks, in seconds. -/
def banPeerDuration : Nat := 3600 * 24 * 14

structure InsertPeerRequest where
  apn : AddressPortNetwork
  firstSeen : Nat

structure DeletePeerRequest where
  apn : AddressPortNetwork

/-- The times are seconds. -/
structure BanPeerRequest where
  apn : AddressPortNetwork
  bannedAt : Nat
  bannedUntil : Nat
  reasons : List String

structure UpdatePeerFromVersionRequest where
  apn : AddressPortNetwork
  services : UInt64
  blockHeight : UInt32
  userAgent : Bytes

structure UpdatePeerFirstOnlineRequest where
  apn : AddressPortNetwork
  ts : Nat

/-- The primary key of `banned_peers`. -/
def BanPeerRequest.key (r : BanPeerRequest) : AddressPortNetwork × Nat := (r.apn, r.bannedUntil)

/-- The requests that a batcher has not executed yet. -/
structure Batcher (ρ : Type) where
  pending : List ρ
  running : Bool

def batchSize : Nat := 2048

namespace Batcher

variable {ρ τ : Type}

def new : Batcher ρ := ⟨[], true⟩

def push (b : Batcher ρ) (r : ρ) : Batcher ρ := { b with pending := b.pending ++ [r] }

/-- The first `count` requests are executed in one transaction. The lock of `CONNECTION` panics when it is poisoned,
and a statement that fails panics with the lock held, which rolls back and poisons it. The last part of the result is
whether the lock is poisoned then. -/
def flush (execute : List τ → ρ → Option (List τ)) (count : Nat) (poisoned : Bool) (b : Batcher ρ) (rows : List τ) :
    Option (Batcher ρ × List τ × Bool) :=
  if b.running ∧ 0 < count ∧ count ≤ batchSize ∧ count ≤ b.pending.length then
    if poisoned then some (⟨b.pending, false⟩, rows, true)
    else
      match (b.pending.take count).foldlM execute rows with
      | some rows' => some (⟨b.pending.drop count, true⟩, rows', false)
      | none => some (⟨b.pending, false⟩, rows, true)
  else none

end Batcher

/-- An insertion into a table with a primary key. -/
def insertKeyed {τ κ : Type} [DecidableEq κ] (key : τ → κ) (rows : List τ) (row : τ) : Option (List τ) :=
  if key row ∈ rows.map key then none else some (rows ++ [row])

/-- `INSERT INTO peers`. Of the rows only the primary key is modelled. -/
def insertPeerRow (rows : List AddressPortNetwork) (r : InsertPeerRequest) : Option (List AddressPortNetwork) :=
  insertKeyed id rows r.apn

/-- `DELETE FROM peers WHERE address = ? AND port = ?`. -/
def deletePeerRows (rows : List AddressPortNetwork) (r : DeletePeerRequest) : Option (List AddressPortNetwork) :=
  some (rows.filter fun row => ¬ (row.address = r.apn.address ∧ row.port = r.apn.port))

/-- `UPDATE peers`, which changes no primary key. A parameter of 64 bits fails from `2 ^ 63` on. -/
def updatePeerFromVersion (rows : List AddressPortNetwork) (r : UpdatePeerFromVersionRequest) :
    Option (List AddressPortNetwork) :=
  if r.services.toNat < 2 ^ 63 then some rows else none

/-- The seconds of the system clock fit. -/
def updatePeerFirstOnline (rows : List AddressPortNetwork) (_ : UpdatePeerFirstOnlineRequest) :
    Option (List AddressPortNetwork) :=
  some rows

/-- `INSERT INTO banned_peers`. -/
def insertBannedPeer (rows : List BanPeerRequest) (r : BanPeerRequest) : Option (List BanPeerRequest) :=
  insertKeyed BanPeerRequest.key rows r

/-- The loop of `peers_seen` under the lock: the peers that were not known, and all known ones. -/
def notePeers : List AddressPortNetwork → Finset AddressPortNetwork →
    List AddressPortNetwork × Finset AddressPortNetwork
  | [], known => ([], known)
  | apn :: apns, known =>
    if apn ∈ known then notePeers apns known
    else
      let (shouldPassToSqlite, known) := notePeers apns (insert apn known)
      (apn :: shouldPassToSqlite, known)

/-- A call of `peers_seen` behind the first lock: it extends `PEERS_TO_CHECK`, then it sends the
peers to the batcher. -/
inductive SeenTask where
  | extending (peers : List AddressPortNetwork) (time : Nat)
  | inserting (peers : List AddressPortNetwork) (time : Nat)

/-- Where a task of `crawl_with_backoff` is: it sleeps or connects, it is connected and calls
`on_peer_version_received`, it reads from its peer, or the loop has ended and the peer is deleted and banned. It is
`dead` when the session panics, `panicked` when a send to a batcher does, and `asserted` when an assertion of the
tracker fails. -/
inductive CrawlPoint where
  | waiting
  | greeting (services : UInt64) (blockHeight : UInt32) (userAgent : Bytes)
  | connected
  | deleting
  | banning (now : Nat)
  | done
  | dead
  | panicked
  | asserted
  deriving DecidableEq

/-- The task holds its `TrackedConnection`. -/
def CrawlPoint.tracked : CrawlPoint → Bool
  | greeting _ _ _ | connected => true
  | _ => false

structure CrawlTask where
  peer : AddressPortNetwork
  backoff : Backoff
  point : CrawlPoint

/-- `crawl` has returned, and the result is evaluated. -/
def CrawlTask.evaluated (t : CrawlTask) (session : Session) : CrawlTask :=
  let backoff := t.backoff.crawlOnce t.peer session
  ⟨t.peer, backoff, if backoff.failedTimes < 14 then .waiting else .deleting⟩

/-- The statics of the address manager and of the peer tracker, the tasks that use them, the batchers, whether
`CONNECTION` is poisoned, and the tables. `crawling` is what `crawl_forever` has taken and not spawned yet. -/
structure AddrMan where
  clock : Nat
  peersToCheck : List AddressPortNetwork
  knownPeers : Finset AddressPortNetwork
  connectedPeers : Finset AddressPortNetwork
  seen : List SeenTask
  crawling : List AddressPortNetwork
  tasks : List CrawlTask
  insertPeers : Batcher InsertPeerRequest
  deletePeers : Batcher DeletePeerRequest
  banPeers : Batcher BanPeerRequest
  updateVersions : Batcher UpdatePeerFromVersionRequest
  updateFirstOnlines : Batcher UpdatePeerFirstOnlineRequest
  poisoned : Bool
  peers : List AddressPortNetwork
  bannedPeers : List BanPeerRequest

/-- A `connects` comes with what the version message of the peer says, a `greets` with whether the request to one
of the two batchers was sent when the other one is closed. -/
inductive AddrManEvent where
  | waits (seconds : Nat)
  | seen (apns : List AddressPortNetwork) (time : Nat)
  | appends (task : Nat)
  | inserts (task : Nat)
  | takes
  | spawns
  | connects (task : Nat) (services : UInt64) (blockHeight : UInt32) (userAgent : Bytes)
  | greets (task : Nat) (sent : Bool)
  | disconnects (task : Nat) (session : Session)
  | dies (task : Nat)
  | deletes (task : Nat)
  | bans (task : Nat)
  | flushInserts (count : Nat)
  | flushDeletes (count : Nat)
  | flushBans (count : Nat)
  | flushVersions (count : Nat)
  | flushFirstOnlines (count : Nat)
  | restart (seconds : Nat) (allPeers : List AddressPortNetwork)

namespace AddrMan

/-- `addrman::start` with what `get_all_peers` returns, in a process that begins with these tables. -/
def started (clock : Nat) (allPeers peers : List AddressPortNetwork) (bannedPeers : List BanPeerRequest) : AddrMan :=
  ⟨clock, allPeers, allPeers.toFinset, ∅, [], [], [], .new, .new, .new, .new, .new, false, peers, bannedPeers⟩

/-- The first start, with an empty database. -/
def new (clock : Nat) : AddrMan := started clock [] [] []

/-- The crawl task goes on at another point. -/
def moveTo (s : AddrMan) (task : Nat) (t : CrawlTask) (point : CrawlPoint) : AddrMan :=
  { s with tasks := s.tasks.set task { t with point := point } }

/-- The peer is no longer tracked, and the crawl task goes on. -/
def dropTracked (s : AddrMan) (task : Nat) (t u : CrawlTask) : Option AddrMan :=
  if t.peer ∈ s.connectedPeers then
    some { s with tasks := s.tasks.set task u, connectedPeers := s.connectedPeers.erase t.peer }
  else some (s.moveTo task t .asserted)

/-- One step of a task, of a batcher, or a restart of the program, which can come at any time. -/
def next (s : AddrMan) : AddrManEvent → Option AddrMan
  | .waits seconds => some { s with clock := s.clock + seconds }
  | .seen apns time =>
    let shouldPassToSqlite := (notePeers apns s.knownPeers).1
    some { s with
      knownPeers := (notePeers apns s.knownPeers).2
      seen := if shouldPassToSqlite.isEmpty then s.seen else s.seen ++ [.extending shouldPassToSqlite time] }
  | .appends task =>
    match s.seen[task]? with
    | some (.extending peers time) =>
      some { s with peersToCheck := s.peersToCheck ++ peers, seen := s.seen.set task (.inserting peers time) }
    | _ => none
  | .inserts task =>
    match s.seen[task]? with
    | some (.inserting (apn :: peers) time) =>
      if s.insertPeers.running then
        some { s with insertPeers := s.insertPeers.push ⟨apn, time⟩, seen := s.seen.set task (.inserting peers time) }
      else some { s with seen := s.seen.set task (.inserting [] time) }
    | _ => none
  | .takes => if s.crawling = [] then some { s with crawling := s.peersToCheck, peersToCheck := [] } else none
  | .spawns =>
    match s.crawling with
    | peer :: peers => some { s with crawling := peers, tasks := s.tasks ++ [⟨peer, .new, .waiting⟩] }
    | [] => none
  | .connects task services blockHeight userAgent =>
    match s.tasks[task]? with
    | some t =>
      if t.point = .waiting ∧ (t.peer.networkId = .ipv4 ∨ t.peer.networkId = .ipv6) then
        if t.peer ∈ s.connectedPeers then some (s.moveTo task t .asserted)
        else some { s.moveTo task t (.greeting services blockHeight userAgent) with
          connectedPeers := insert t.peer s.connectedPeers }
      else none
    | none => none
  | .greets task sent =>
    match s.tasks[task]? with
    | some t =>
      match t.point with
      | .greeting services blockHeight userAgent =>
        let versions := s.updateVersions.push ⟨t.peer, services, blockHeight, userAgent⟩
        let firstOnlines := s.updateFirstOnlines.push ⟨t.peer, s.clock⟩
        if s.updateVersions.running ∧ s.updateFirstOnlines.running then
          some { s.moveTo task t .connected with updateVersions := versions, updateFirstOnlines := firstOnlines }
        else
          let s := { s with
            updateVersions := if s.updateVersions.running ∧ sent then versions else s.updateVersions
            updateFirstOnlines := if s.updateFirstOnlines.running ∧ sent then firstOnlines else s.updateFirstOnlines }
          s.dropTracked task t { t with point := .panicked }
      | _ => none
    | none => none
  | .disconnects task session =>
    match s.tasks[task]?, session.connection with
    | some t, .error _ =>
      if t.point = .waiting then some { s with tasks := s.tasks.set task (t.evaluated session) } else none
    | some t, .ok _ => if t.point = .connected then s.dropTracked task t (t.evaluated session) else none
    | _, _ => none
  | .dies task =>
    match s.tasks[task]? with
    | some t =>
      if t.point = .connected then s.dropTracked task t { t with point := .dead } else none
    | none => none
  | .deletes task =>
    match s.tasks[task]? with
    | some t =>
      if t.point = .deleting then
        if s.deletePeers.running then
          some { s.moveTo task t (.banning s.clock) with deletePeers := s.deletePeers.push ⟨t.peer⟩ }
        else some (s.moveTo task t .panicked)
      else none
    | none => none
  | .bans task =>
    match s.tasks[task]? with
    | some t =>
      match t.point with
      | .banning now =>
        if s.banPeers.running then
          some { s.moveTo task t .done with
            banPeers := s.banPeers.push ⟨t.peer, now, now + banPeerDuration, t.backoff.failReasons⟩ }
        else some (s.moveTo task t .panicked)
      | _ => none
    | none => none
  | .flushInserts count =>
    (s.insertPeers.flush insertPeerRow count s.poisoned s.peers).map fun (b, rows, poisoned) =>
      { s with insertPeers := b, peers := rows, poisoned := poisoned }
  | .flushDeletes count =>
    (s.deletePeers.flush deletePeerRows count s.poisoned s.peers).map fun (b, rows, poisoned) =>
      { s with deletePeers := b, peers := rows, poisoned := poisoned }
  | .flushBans count =>
    (s.banPeers.flush insertBannedPeer count s.poisoned s.bannedPeers).map fun (b, rows, poisoned) =>
      { s with banPeers := b, bannedPeers := rows, poisoned := poisoned }
  | .flushVersions count =>
    (s.updateVersions.flush updatePeerFromVersion count s.poisoned s.peers).map fun (b, rows, poisoned) =>
      { s with updateVersions := b, peers := rows, poisoned := poisoned }
  | .flushFirstOnlines count =>
    (s.updateFirstOnlines.flush updatePeerFirstOnline count s.poisoned s.peers).map fun (b, rows, poisoned) =>
      { s with updateFirstOnlines := b, peers := rows, poisoned := poisoned }
  | .restart seconds allPeers =>
    if allPeers.Perm s.peers then some (started (s.clock + seconds) allPeers s.peers s.bannedPeers) else none

def Step (s : AddrMan) (event : AddrManEvent) (t : AddrMan) : Prop :=
  s.next event = some t

end AddrMan

end Bitlens

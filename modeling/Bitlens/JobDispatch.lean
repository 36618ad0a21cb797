import Bitlens.PeerSession

namespace Bitlens
open Lib

/-- The sender of a oneshot channel: the peer whose task holds the receiver, and which of its channels
this is. -/
@[ext] structure Registration where
  peer : Nat
  round : Nat
  deriving DecidableEq

/-- Where the task of a peer is: it sends the sender of its new channel to the manager, waits in its
loop, gives what it has received to the chain watcher, or has taken a job. A peer is `gone` when its
session has ended, and `panicked` when it could not register. -/
inductive LoopPoint where
  | registering
  | selecting
  | sending (items : List (BlockHeaderOwned ⊕ Block))
  | asking (job : Hash)
  | gone
  | panicked

/-- `received` is the job in the current channel, and `asked` are the blocks that the peer was asked for. -/
structure PeerLoop where
  point : LoopPoint
  round : Nat
  received : Option Hash
  asked : List Hash

def PeerLoop.new : PeerLoop := ⟨.registering, 0, none, []⟩

/-- The task has not dropped its receiver. -/
def PeerLoop.alive (peer : PeerLoop) : Bool :=
  match peer.point with
  | .gone | .panicked => false
  | _ => true

/-- The chain watcher waits for a branch, sends a job, or has panicked. -/
inductive WatcherPoint where
  | selecting
  | sending (job : Hash)
  | ended
  deriving DecidableEq

/-- The chain watcher, the worker manager and the tasks of the peers with the channels between them.
`ticked` are the jobs that the watcher has begun to send. -/
structure Dispatch extends Keepup where
  watcher : WatcherPoint
  receivedHeaders : List BlockHeaderOwned
  receivedBlocks : List Block
  jobs : List Hash
  managing : Bool
  registrations : List Registration
  workers : List Registration
  peers : List PeerLoop
  ticked : List Hash

inductive DispatchEvent where
  | ticks
  | sendsJob
  | newHeader
  | newBlock (env : Surroundings)
  | manages
  | dispatches (pick : Nat → Nat)
  | closes
  | connects
  | registers (peer : Nat)
  | receives (peer : Nat) (payload : ReceivedPayload) (flags : SyncFlags)
  | gives (peer : Nat)
  | takesJob (peer : Nat)
  | asks (peer : Nat) (flags : SyncFlags)
  | leaves (peer : Nat)

/-- `Vec::swap_remove`. -/
def swapRemove {α : Type} (xs : List α) (i : Nat) : List α :=
  match xs.getLast? with
  | none => []
  | some last => (xs.set i last).dropLast

/-- The loop of the manager over its workers: which one takes the job, and who is left. `pick` is
what the generator draws for a number of workers. -/
def offer (alive : Registration → Bool) (pick : Nat → Nat) : Nat → List Registration →
    Option Registration × List Registration
  | 0, workers => (none, workers)
  | fuel + 1, workers =>
    match workers[pick workers.length % workers.length]? with
    | none => (none, workers)
    | some worker =>
      let workers := swapRemove workers (pick workers.length % workers.length)
      if alive worker then (some worker, workers) else offer alive pick fuel workers

namespace Dispatch

def start (w : Chainman) : Dispatch :=
  ⟨⟨⟨w, []⟩, []⟩, .selecting, [], [], [], true, [], [], [], []⟩

/-- The watcher after a branch; a panic drops its ends of the channels. -/
def watched (s : Dispatch) (keepup : Keepup) : Outcome Unit → Dispatch
  | .ok _ => { s with toKeepup := keepup }
  | _ => { s with toKeepup := keepup, watcher := .ended, receivedHeaders := [], receivedBlocks := [] }

def setPeer (s : Dispatch) (i : Nat) (peer : PeerLoop) : Dispatch := { s with peers := s.peers.set i peer }

/-- The receiver of the channel is there. -/
def alive (s : Dispatch) (r : Registration) : Bool :=
  (s.peers[r.peer]?).any fun peer => peer.round = r.round ∧ peer.alive

/-- The job is put into the channel of the worker. -/
def deliver (s : Dispatch) (job : Hash) : Option Registration → Dispatch
  | none => s
  | some r =>
    match s.peers[r.peer]? with
    | some peer => s.setPeer r.peer { peer with received := some job }
    | none => s

/-- One item of `handle_payload` is sent to the chain watcher, which may have ended. -/
def give (s : Dispatch) : BlockHeaderOwned ⊕ Block → Option Dispatch
  | .inl header =>
    if s.watcher = .ended then some s
    else if s.receivedHeaders.length < channelCapacity then
      some { s with receivedHeaders := s.receivedHeaders ++ [header] }
    else none
  | .inr block =>
    if s.watcher = .ended then some s
    else if s.receivedBlocks.length < channelCapacity then some { s with receivedBlocks := s.receivedBlocks ++ [block] }
    else none

section

variable (p : Profile) (sha256 : Bytes → Hash) (scripts : Scripts)

/-- A send waits for room in its channel. -/
def next (s : Dispatch) : DispatchEvent → Option Dispatch
  | .ticks =>
    if s.watcher = .selecting then
      match s.queue with
      | [] => some s
      | entry :: _ => some { s with watcher := .sending entry.hash, ticked := s.ticked ++ [entry.hash] }
    else none
  | .sendsJob =>
    match s.watcher with
    | .sending job =>
      if s.managing then
        if s.jobs.length < channelCapacity then some { s with watcher := .selecting, jobs := s.jobs ++ [job] } else none
      else some { s with watcher := .selecting }
    | _ => none
  | .newHeader =>
    match s.watcher, s.receivedHeaders with
    | .selecting, header :: rest =>
      let (watcher, outcome) := handleNewHeader p header s.toWatcher
      some ({ s with receivedHeaders := rest }.watched ⟨watcher, s.effects⟩ outcome)
    | _, _ => none
  | .newBlock env =>
    match s.watcher, s.receivedBlocks with
    | .selecting, block :: rest =>
      let (keepup, outcome) := handleNewBlock p sha256 scripts env (some (.block block)) s.toKeepup
      some ({ s with receivedBlocks := rest }.watched keepup outcome)
    | _, _ => none
  | .manages =>
    match s.registrations with
    | r :: rest => if s.managing then some { s with registrations := rest, workers := s.workers ++ [r] } else none
    | [] => none
  | .dispatches pick =>
    match s.jobs with
    | job :: rest =>
      if s.managing then
        let (worker, workers) := offer s.alive pick s.workers.length s.workers
        some ({ s with jobs := rest, workers := workers }.deliver job worker)
      else none
    | [] => none
  | .closes =>
    -- the watcher's sender is dropped, so the manager returns and drops all workers
    if s.managing ∧ s.watcher = .ended ∧ s.jobs = [] then
      some { s with managing := false, registrations := [], workers := [] }
    else none
  | .connects => some { s with peers := s.peers ++ [.new] }
  | .registers i =>
    match s.peers[i]? with
    | some peer =>
      match peer.point with
      | .registering =>
        if s.managing then
          if s.registrations.length < channelCapacity then
            some { s.setPeer i { peer with point := .selecting } with
              registrations := s.registrations ++ [⟨i, peer.round⟩] }
          else none
        else some (s.setPeer i { peer with point := .panicked })
      | _ => none
    | none => none
  | .receives i payload flags =>
    match s.peers[i]? with
    | some peer =>
      match peer.point with
      | .selecting =>
        let items := sendsOf flags.shouldProcessHeaders flags.shouldProcessBlocks payload
        some (s.setPeer i { peer with point := .sending items })
      | _ => none
    | none => none
  | .gives i =>
    match s.peers[i]? with
    | some peer =>
      match peer.point with
      | .sending (item :: items) => (s.give item).map fun s => s.setPeer i { peer with point := .sending items }
      | .sending [] => some (s.setPeer i { peer with point := .selecting })
      | _ => none
    | none => none
  | .takesJob i =>
    match s.peers[i]? with
    | some peer =>
      match peer.point, peer.received with
      | .selecting, some job => some (s.setPeer i { peer with point := .asking job, received := none })
      | .selecting, none =>
        -- an error when nobody holds the sender
        if ⟨i, peer.round⟩ ∈ s.registrations ++ s.workers then none else some (s.setPeer i { peer with point := .gone })
      | _, _ => none
    | none => none
  | .asks i flags =>
    match s.peers[i]? with
    | some peer =>
      match peer.point with
      | .asking job =>
        let asked := if flags.shouldProcessBlocks then peer.asked ++ [job] else peer.asked
        some (s.setPeer i ⟨.registering, peer.round + 1, none, asked⟩)
      | _ => none
    | none => none
  | .leaves i =>
    match s.peers[i]? with
    | some peer =>
      match peer.point with
      | .selecting | .asking _ => some (s.setPeer i { peer with point := .gone, received := none })
      | _ => none
    | none => none

def Step (s : Dispatch) (event : DispatchEvent) (t : Dispatch) : Prop :=
  s.next p sha256 scripts event = some t

end

end Dispatch

end Bitlens

import Bitlens.BlockApplication
import Bitlens.Connection
import Bitlens.JobSelection

namespace Bitlens
open Lib

def initialWorkerCount : Nat := 10

/-- The capacity of the channel to the master. -/
def masterCapacity : Nat := 1

def jobToGetdata (hash : Hash) : PayloadToSend :=
  .getData [⟨.witnessBlock, hash⟩]

abbrev Block.hash (block : Block) : Hash :=
  block.header.hash

/-- Where `run_download_worker` is: it sends its first message and waits for the job, it
looks for a peer, has a request to write to the peer it is connected to, or reads from it,
and it sends a block and waits for the next job. -/
inductive DownloadWorker where
  | fetching
  | pulling
  | connecting (job : Hash × Nat)
  | writing (job : Hash × Nat)
  | reading (job : Hash × Nat)
  | pushing (block : Block) (number : Nat)
  | awaiting
  | ended
  | panicked

namespace DownloadWorker

/-- The task has dropped its sender to the master. -/
def Dead : DownloadWorker → Prop
  | ended | panicked => True
  | _ => False

instance : DecidablePred Dead := fun w => by
  cases w <;> first | exact isTrue trivial | exact isFalse id

/-- What the reply does to a worker that waits for it; without one its sender was dropped. -/
def reply (job : Option (Hash × Nat)) : DownloadWorker → DownloadWorker
  | pulling => (job.map connecting).getD ended
  | awaiting => (job.map writing).getD ended
  | w => w

/-- `should_send`: the witness commitment is checked before the hash is compared. -/
def shouldSend (sha256 : Bytes → Hash) (job : Hash × Nat) : Option ReceivedPayload → Outcome Bool
  | some (.block b) =>
    match (if segwitHeight ≤ job.2 then verifyWitnessCommitment sha256 b else .ok () : Outcome Unit) with
    | .ok _ => .ok (b.header.hash = job.1)
    | .err => .ok false
    | .fault => .fault
  | _ => .ok false

/-- A reading worker with what the reader task of its connection sends. A panic of the
reader task closes its channel, so it is an error here. -/
def receive (sha256 : Bytes → Hash) (job : Hash × Nat) (read : Outcome (Except Error (Packet × Bytes))) :
    DownloadWorker :=
  match read with
  | .ok (.ok (packet, _)) =>
    match packet.payload, shouldSend sha256 job packet.payload with
    | some (.block b), .ok true => .pushing b job.2
    | _, .ok _ => .reading job
    | _, _ => .panicked
  | _ => .connecting job

end DownloadWorker

instance decidableSends {P : Type} (m : JobMaster P) (label : JobLabel P) : Decidable (m.Sends label) :=
  match label with
  | ⟨_, _, .pullFirstJob⟩ => isTrue trivial
  | ⟨_, _, .pushResultAndGetNewJob _ _⟩ => Nat.decLe _ _

/-- The time spent on waiting for flush, in microseconds of the system clock. -/
structure TimeTracker where
  totalWaitedMicros : Nat
  lastWaitStart : Nat

namespace TimeTracker

def new : TimeTracker := ⟨0, 0⟩

def start (currentMicros : UInt64) (t : TimeTracker) : Outcome TimeTracker :=
  if t.lastWaitStart ≠ 0 then .fault else .ok { t with lastWaitStart := currentMicros.toNat }

def stop (p : Profile) (currentMicros : UInt64) (t : TimeTracker) : Outcome TimeTracker :=
  if t.lastWaitStart = 0 then .fault
  else do
    let waited ← p.sub 64 currentMicros.toNat t.lastWaitStart
    let total ← p.add 64 t.totalWaitedMicros waited
    pure ⟨total, 0⟩

def reset (t : TimeTracker) : Outcome TimeTracker :=
  if t.lastWaitStart ≠ 0 then .fault else .ok { t with totalWaitedMicros := 0 }

end TimeTracker

namespace JobMaster

variable {P : Type}

/-- The pushed block is the one that is applied next, so that flush gets it. -/
def Applies (m : JobMaster P) : DownloadWorkerMessage P → Prop
  | .pullFirstJob => False
  | .pushResultAndGetNewJob _ number => number = m.state.firstMissingNumber + m.state.nextToApply

instance (m : JobMaster P) : DecidablePred m.Applies := fun message =>
  match message with
  | .pullFirstJob => isFalse id
  | .pushResultAndGetNewJob _ _ => inferInstanceAs (Decidable (_ = _))

/-- The master's task has panicked. -/
def halt (m : JobMaster P) : JobMaster P :=
  ⟨⟨m.state, false, m.flushed, m.handedOut⟩, m.clock, m.calls⟩

/-- The master's task panics behind the sends of a message. -/
def haltBehindSends (label : JobLabel P) (m : JobMaster P) : JobMaster P :=
  match label.message with
  | .pullFirstJob => m.halt
  | .pushResultAndGetNewJob block number =>
    match m.state.pushAccepted label.accepts block number with
    | .ok (t, sent, _) => ⟨⟨t, false, m.flushed ++ sent, m.handedOut⟩, m.clock, m.calls⟩
    | _ => m.halt

/-- `handle_worker_message` with its time tracker, when the system clock shows `begins` before the sends and `ends`
behind them. A failing first send leaves the tracker started. -/
def handleTracked (p : Profile) (label : JobLabel P) (begins ends : UInt64) (m : JobMaster P) (tracker : TimeTracker) :
    JobMaster P × TimeTracker :=
  if m.Applies label.message then
    match tracker.start begins with
    | .ok started =>
      if label.accepts = 0 then (m.handle p label, started)
      else
        match started.stop p ends with
        | .ok stopped => (m.handle p label, stopped)
        | _ => (m.haltBehindSends label, started)
    | _ => (m.halt, tracker)
  else (m.handle p label, tracker)

end JobMaster

/-- What `r` says on a tick: at least 0.9, at most 0.5, or neither. -/
inductive DownloadRate where
  | high
  | low
  | between

/-- `sync_blocks`: the master with its time tracker, the last reading of its clock in microseconds and the messages to
it, its workers in the order they were spawned and those it can still abort, and the requests written to peers.
`flushing` ends when the task that takes the flushed blocks does. -/
structure Download where
  master : JobMaster Block
  tracker : TimeTracker
  micros : UInt64
  finished : Bool
  flushing : Bool
  queue : List (Nat × DownloadWorkerMessage Block)
  workers : List DownloadWorker
  handles : List Nat
  requests : List PayloadToSend

/-- The steps of the tasks. A `tick` is that of the master's ticker, with the microseconds since the last one. A
`receive` is a packet in time, whatever the peer sends; a `timeout` is a passed deadline; a worker is orphaned when the
master's task is gone. -/
inductive DownloadEvent where
  | tick (elapsed : UInt64) (rate : DownloadRate)
  | finish
  | handle (now accepts : Nat) (begins ends : UInt64)
  | send (worker : Nat)
  | orphan (worker : Nat)
  | connect (worker : Nat) (written : Bool)
  | write (worker : Nat) (written : Bool)
  | receive (worker : Nat) (getArena : Nat → Arena) (stream : Bytes)
  | timeout (worker : Nat)

namespace Download

def start (missingBlocks : List Hash) (firstMissingNumber : Nat) : Download where
  master := .new missingBlocks firstMissingNumber
  tracker := .new
  micros := 0
  finished := false
  flushing := true
  queue := []
  workers := List.replicate initialWorkerCount .fetching
  handles := List.range initialWorkerCount
  requests := []

/-- The master's task is in its loop. -/
def Looping (s : Download) : Prop :=
  s.master.running = true ∧ s.finished = false

instance (s : Download) : Decidable s.Looping :=
  inferInstanceAs (Decidable (_ ∧ _))

def setWorker (s : Download) (i : Nat) (w : DownloadWorker) : Download :=
  { s with workers := s.workers.set i w }

/-- A worker sends a message to the master and waits for the reply. -/
def enqueue (s : Download) (i : Nat) (message : DownloadWorkerMessage Block) (w : DownloadWorker) : Download :=
  { s.setWorker i w with queue := s.queue ++ [(i, message)] }

/-- `write_packet` with the request for a job; after an error the worker looks for another peer. -/
def writeJob (s : Download) (i : Nat) (job : Hash × Nat) (written : Bool) : Download :=
  if written then { s.setWorker i (.reading job) with requests := s.requests ++ [jobToGetdata job.1] }
  else s.setWorker i (.connecting job)

/-- The master handles the message of a worker. A send on flush that fails ends the
flushing for good. -/
def handle (p : Profile) (s : Download) (i : Nat) (message : DownloadWorkerMessage Block)
    (queue : List (Nat × DownloadWorkerMessage Block)) (now accepts : Nat) (begins ends : UInt64) : Download :=
  let label : JobLabel Block := ⟨now, accepts, message⟩
  let (master, tracker) := s.master.handleTracked p label begins ends s.tracker
  let job := master.handedOut[s.master.handedOut.length]?
  { s with
    master := master
    tracker := tracker
    micros := if s.master.Applies message then ends else s.micros
    flushing := s.flushing && s.master.Sends label
    queue := queue
    workers := s.workers.modify i (DownloadWorker.reply job) }

def halt (s : Download) : Download := { s with master := s.master.halt }

/-- On a tick a worker is spawned or the last one aborted. -/
def adjust (maxWorkers : Nat) (rate : DownloadRate) (s : Download) : Download :=
  match rate, s.handles.getLast? with
  | .high, _ =>
    if s.handles.length < maxWorkers then
      { s with workers := s.workers ++ [.fetching], handles := s.handles ++ [s.workers.length] }
    else s
  | .low, some i => if 1 < s.handles.length then { s.setWorker i .ended with handles := s.handles.dropLast } else s
  | _, _ => s

/-- The branch of the ticker, from the subtraction of the waited time. -/
def tick (p : Profile) (maxWorkers : Nat) (elapsed : UInt64) (rate : DownloadRate) (s : Download) : Download :=
  match p.sub 64 elapsed.toNat s.tracker.totalWaitedMicros with
  | .ok _ =>
    match s.tracker.reset with
    | .ok tracker => { s.adjust maxWorkers rate with tracker := tracker }
    | _ => (s.adjust maxWorkers rate).halt
  | _ => s.halt

/-- One step, where it is possible. -/
def next (p : Profile) (sha256 : Bytes → Hash) (maxWorkers : Nat) (s : Download) : DownloadEvent → Option Download
  | .tick elapsed rate => if s.Looping then some (s.tick p maxWorkers elapsed rate) else none
  | .finish => if s.Looping ∧ ∀ w ∈ s.workers, w.Dead then some { s with finished := true } else none
  | .handle now accepts begins ends =>
    match s.queue with
    | [] => none
    | (i, message) :: queue =>
      if s.Looping ∧ (s.flushing = true ∨ accepts = 0) then some (s.handle p i message queue now accepts begins ends)
      else none
  | .send i =>
    if s.Looping ∧ s.queue.length < masterCapacity then
      match s.workers[i]? with
      | some .fetching => some (s.enqueue i .pullFirstJob .pulling)
      | some (.pushing block number) => some (s.enqueue i (.pushResultAndGetNewJob block number) .awaiting)
      | _ => none
    else none
  | .orphan i =>
    if s.Looping then none
    else
      match s.workers[i]? with
      | some .fetching | some .pulling | some (.pushing _ _) | some .awaiting => some (s.setWorker i .ended)
      | _ => none
  | .connect i written =>
    match s.workers[i]? with
    | some (.connecting job) => some (s.writeJob i job written)
    | _ => none
  | .write i written =>
    match s.workers[i]? with
    | some (.writing job) => some (s.writeJob i job written)
    | _ => none
  | .receive i getArena stream =>
    match s.workers[i]? with
    | some (.reading job) => some (s.setWorker i (.receive sha256 job (readPacket sha256 getArena stream)))
    | _ => none
  | .timeout i =>
    match s.workers[i]? with
    | some (.reading job) => some (s.setWorker i (.connecting job))
    | _ => none

def Step (p : Profile) (sha256 : Bytes → Hash) (maxWorkers : Nat) (s : Download) (event : DownloadEvent)
    (t : Download) : Prop :=
  s.next p sha256 maxWorkers event = some t

end Download

end Bitlens

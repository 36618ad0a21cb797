import Bitlens.Pow
import Bitlens.Lib.BinarySearch
import Bitlens.Lib.Run

namespace Bitlens
open Lib

/-- What a download worker asks of the master; its reply channel is the reply of
`handleWorkerMessage`. -/
inductive DownloadWorkerMessage (P : Type) where
  | pullFirstJob
  | pushResultAndGetNewJob (block : P) (number : Nat)

/-- `MasterState` without the averages that only steer the number of workers.
Block numbers are heights of one chain, far below `2 ^ 64`. -/
structure MasterState (P : Type) where
  missingBlocks : List Hash
  firstMissingNumber : Nat
  lastRequestTimes : List Nat
  nextToApply : Nat
  nextNeverAskedFor : Nat
  backlog : List (P × Nat)

namespace MasterState

variable {P : Type}

/-- The state `run_master` starts with. -/
def new (missingBlocks : List Hash) (firstMissingNumber : Nat) : MasterState P where
  missingBlocks := missingBlocks
  firstMissingNumber := firstMissingNumber
  lastRequestTimes := List.replicate missingBlocks.length 0
  nextToApply := 0
  nextNeverAskedFor := 0
  backlog := []

/-- An indexed write, which panics out of range. -/
def setAt (times : List Nat) (i value : Nat) : Outcome (List Nat) :=
  if i < times.length then .ok (times.set i value) else .fault

/-- The loop of `find_next_best_job` over the blocks asked for: the first one
asked for over a second ago, or else the one waited on the longest. -/
def findWaiting (p : Profile) (now : Nat) (lastRequestTimes : List Nat) :
    List Nat → Option (Nat × Nat) → Outcome (Nat ⊕ Option Nat)
  | [], oldest => .ok (.inr (oldest.map (·.1)))
  | i :: rest, oldest => do
    let requestedAt ← Outcome.unwrap lastRequestTimes[i]?
    if requestedAt = 0 then findWaiting p now lastRequestTimes rest oldest
    else
      let elapsed ← p.sub 64 now requestedAt
      if elapsed > 1000 then pure (.inl i)
      else
        findWaiting p now lastRequestTimes rest
          (match oldest with
            | none => some (i, elapsed)
            | some (j, longest) => if elapsed > longest then some (i, elapsed) else some (j, longest))

/-- Asks for block `i` now. -/
def request (now i : Nat) (s : MasterState P) : Outcome (MasterState P × Option (Hash × Nat)) := do
  let times ← setAt s.lastRequestTimes i now
  let hash ← Outcome.unwrap s.missingBlocks[i]?
  pure ({ s with lastRequestTimes := times }, some (hash, s.firstMissingNumber + i))

def findNextBestJob (p : Profile) (now : Nat) (canAdvance : Bool) (s : MasterState P) :
    Outcome (MasterState P × Option (Hash × Nat)) := do
  let waiting ← findWaiting p now s.lastRequestTimes
    (List.range' s.nextToApply (s.nextNeverAskedFor - s.nextToApply)) none
  match waiting with
  | .inl i => s.request now i
  | .inr oldest =>
    if canAdvance = false then
      let i ← Outcome.unwrap oldest
      s.request now i
    else if s.nextNeverAskedFor < s.missingBlocks.length then
      ({ s with nextNeverAskedFor := s.nextNeverAskedFor + 1 } : MasterState P).request now s.nextNeverAskedFor
    else if s.nextToApply < s.nextNeverAskedFor then
      let hash ← Outcome.unwrap s.missingBlocks[s.nextToApply]?
      pure (s, some (hash, s.firstMissingNumber + s.nextToApply))
    else pure (s, none)

/-- The loop of `apply_from_backlog` with the blocks it sends, next first; each
turn takes one block off the backlog, so its length bounds the loop. -/
def applyFromBacklog (firstMissingNumber : Nat) :
    Nat → List (P × Nat) → Nat → List (P × Nat) × Nat × List (P × Nat)
  | 0, backlog, nextToApply => (backlog, nextToApply, [])
  | fuel + 1, backlog, nextToApply =>
    match backlog.getLast? with
    | none => (backlog, nextToApply, [])
    | some popped =>
      if popped.2 = firstMissingNumber + nextToApply then
        let (rest, next, sent) := applyFromBacklog firstMissingNumber fuel backlog.dropLast (nextToApply + 1)
        (rest, next, popped :: sent)
      else (backlog, nextToApply, [])

/-- Inserts a block ahead of its turn; the backlog is descending, so the search
compares the other way round. -/
def insertBacklog (block : P) (number : Nat) (backlog : List (P × Nat)) : List (P × Nat) :=
  match binarySearchBy (fun entry => compare number entry.2) backlog with
  | .error i => backlog.insertIdx i (block, number)
  | .ok _ => backlog

/-- The push half of `handle_worker_message`: the new state and the blocks sent
on flush, where every send succeeds. -/
def pushResult (block : P) (number : Nat) (s : MasterState P) : MasterState P × List (P × Nat) × Outcome Unit :=
  if number > s.firstMissingNumber + s.nextToApply then
    let backlog := insertBacklog block number s.backlog
    match setAt s.lastRequestTimes (number - s.firstMissingNumber) 0 with
    | .ok times => ({ s with backlog := backlog, lastRequestTimes := times }, [], .ok ())
    | _ => ({ s with backlog := backlog }, [], .fault)
  else if number < s.firstMissingNumber + s.nextToApply then (s, [], .ok ())
  else
    let (backlog, next, sent) :=
      applyFromBacklog s.firstMissingNumber s.backlog.length s.backlog (s.nextToApply + 1)
    ({ s with backlog := backlog, nextToApply := next }, (block, number) :: sent, .ok ())

/-- The new state, the blocks sent on flush and the reply to the worker. A fault
ends the master's task. -/
def handleWorkerMessage (p : Profile) (now : Nat) (message : DownloadWorkerMessage P) (s : MasterState P) :
    MasterState P × List (P × Nat) × Outcome (Option (Hash × Nat)) :=
  match message with
  | .pullFirstJob =>
    match s.findNextBestJob p now true with
    | .ok (t, job) => (t, [], .ok job)
    | _ => (s, [], .fault)
  | .pushResultAndGetNewJob block number =>
    match s.pushResult block number with
    | (t, sent, .ok _) =>
      match t.findNextBestJob p now (t.backlog.length ≤ 512) with
      | .ok (u, job) => (u, sent, .ok job)
      | _ => (t, sent, .fault)
    | (t, sent, _) => (t, sent, .fault)

end MasterState

/-- The master's task with what it has sent: the blocks on flush and the jobs to
the workers. -/
structure Master (P : Type) where
  state : MasterState P
  running : Bool
  flushed : List (P × Nat)
  handedOut : List (Hash × Nat)

namespace Master

variable {P : Type}

def new (missingBlocks : List Hash) (firstMissingNumber : Nat) : Master P :=
  ⟨.new missingBlocks firstMissingNumber, true, [], []⟩

def handle (p : Profile) (now : Nat) (message : DownloadWorkerMessage P) (m : Master P) : Master P :=
  match m.state.handleWorkerMessage p now message with
  | (t, sent, .ok job) => ⟨t, true, m.flushed ++ sent, m.handedOut ++ job.toList⟩
  | (t, sent, _) => ⟨t, false, m.flushed ++ sent, m.handedOut⟩

/-- A worker pushes only the block of a job it was handed, at that job's number. -/
def Answers (blockHash : P → Hash) (m : Master P) : DownloadWorkerMessage P → Prop
  | .pullFirstJob => True
  | .pushResultAndGetNewJob block number => (blockHash block, number) ∈ m.handedOut

instance (blockHash : P → Hash) (m : Master P) (message : DownloadWorkerMessage P) :
    Decidable (m.Answers blockHash message) := by
  cases message with
  | pullFirstJob => exact inferInstanceAs (Decidable True)
  | pushResultAndGetNewJob block number => exact inferInstanceAs (Decidable ((blockHash block, number) ∈ m.handedOut))

/-- The running master handles one message at some time of its clock. -/
def Step (blockHash : P → Hash) (p : Profile) (m : Master P) (label : Nat × DownloadWorkerMessage P)
    (n : Master P) : Prop :=
  m.running = true ∧ m.Answers blockHash label.2 ∧ n = m.handle p label.1 label.2

end Master

end Bitlens

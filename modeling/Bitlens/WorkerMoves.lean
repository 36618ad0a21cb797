import Bitlens.DownloadWorkers
import Bitlens.ParsedBlocks

namespace Bitlens
open Lib

/-! What a step does. -/

/-- A peer sends a block without transactions. -/
def SendsEmptyBlock (sha256 : Bytes → Hash) (getArena : Nat → Arena) (stream : Bytes) : Prop :=
  match readPacket sha256 getArena stream with
  | .ok (.ok (packet, _)) =>
    match packet.payload with
    | some (.block block) => block.txs = []
    | _ => False
  | _ => False

instance (sha256 : Bytes → Hash) (getArena : Nat → Arena) (stream : Bytes) :
    Decidable (SendsEmptyBlock sha256 getArena stream) := by
  unfold SendsEmptyBlock
  split
  · split <;> infer_instance
  · infer_instance

theorem sendsEmptyBlock_iff {sha256 : Bytes → Hash} {getArena : Nat → Arena} {stream : Bytes} :
    SendsEmptyBlock sha256 getArena stream ↔ ∃ packet rest block,
      readPacket sha256 getArena stream = .ok (.ok (packet, rest)) ∧ packet.payload = some (.block block) ∧
        block.txs = [] := by
  unfold SendsEmptyBlock
  constructor
  · intro sends
    split at sends
    · next packet rest read =>
      split at sends
      · next block sent => exact ⟨packet, rest, block, read, sent, sends⟩
      · exact absurd sends id
    · exact absurd sends id
  · rintro ⟨packet, rest, block, read, sent, empty⟩
    rw [read]
    dsimp only
    rw [sent]
    exact empty

/-- A block that was read from a packet, with its witness commitment checked where its number asks for that. -/
structure Verified (sha256 : Bytes → Hash) (block : Block) (number : Nat) : Prop where
  read : ∃ bytes, Accepts sha256 bytes block
  witness : segwitHeight ≤ number → verifyWitnessCommitment sha256 block = .ok ()

/-- The job that a worker works on. -/
def DownloadWorker.job : DownloadWorker → Option (Hash × Nat)
  | .connecting job | .writing job | .reading job => some job
  | _ => none

namespace DownloadWorker

variable {u : DownloadWorker} {job : Option (Hash × Nat)}

theorem reply_job {j : Hash × Nat} (works : (u.reply job).job = some j) : u.job = some j ∨ job = some j := by
  cases u with
  | pulling | awaiting =>
    right
    cases job with
    | none => cases works
    | some k => exact works
  | _ => exact Or.inl works

theorem reply_pushing {block : Block} {number : Nat} (same : u.reply job = .pushing block number) :
    u = .pushing block number := by
  cases u with
  | pulling | awaiting => cases job <;> cases same
  | _ => exact same

theorem reply_panicked (same : u.reply job = .panicked) : u = .panicked := by
  cases u with
  | pulling | awaiting => cases job <;> cases same
  | _ => exact same

theorem reply_ended (same : u.reply job = .ended) : u = .ended ∨ job = none := by
  cases u with
  | pulling | awaiting =>
    right
    cases job with
    | none => rfl
    | some j => cases same
  | _ => exact Or.inl same

end DownloadWorker

/-- A step of the worker `i`: where it is before and after, what it sends to the master and what it
writes to its peer. -/
inductive Acts (sha256 : Bytes → Hash) (looping : Prop) (event : DownloadEvent) (i : Nat) :
    DownloadWorker → DownloadWorker → List (DownloadWorkerMessage Block) → List PayloadToSend → Prop
  | pulls : Acts sha256 looping event i .fetching .pulling [.pullFirstJob] []
  | pushes {block number} :
      Acts sha256 looping event i (.pushing block number) .awaiting [.pushResultAndGetNewJob block number] []
  | ends {w} : ¬ looping → Acts sha256 looping event i w .ended [] []
  | asks {w job} : w.job = some job → Acts sha256 looping event i w (.reading job) [] [jobToGetdata job.1]
  | works {w v job} : w.job = some job → v.job = some job → Acts sha256 looping event i w v [] []
  | finds {job block} : block.header.hash = job.1 → Verified sha256 block job.2 →
      Acts sha256 looping event i (.reading job) (.pushing block job.2) [] []
  | panics {getArena stream job} : event = .receive i getArena stream → segwitHeight ≤ job.2 →
      SendsEmptyBlock sha256 getArena stream → Acts sha256 looping event i (.reading job) .panicked [] []

namespace Download

variable {p : Profile} {sha256 : Bytes → Hash} {maxWorkers : Nat} {s t : Download} {event : DownloadEvent}
  {missing : List Hash} {first : Nat}

/-- The state after a step of one worker. -/
def act (s : Download) (i : Nat) (w : DownloadWorker) (sent : List (DownloadWorkerMessage Block))
    (asked : List PayloadToSend) : Download :=
  { s with
    workers := s.workers.set i w
    queue := s.queue ++ sent.map fun message => (i, message)
    requests := s.requests ++ asked }

/-- What a tick does to the workers. -/
inductive Adjusts (maxWorkers : Nat) (s : Download) : Download → Prop
  | keeps : Adjusts maxWorkers s s
  | spawns : s.handles.length < maxWorkers →
      Adjusts maxWorkers s { s with workers := s.workers ++ [.fetching], handles := s.handles ++ [s.workers.length] }
  | aborts {front i} : s.handles = front ++ [i] → front ≠ [] →
      Adjusts maxWorkers s { s.setWorker i .ended with handles := front }

/-- The state with what a tick does to the master. -/
def ticked (s : Download) (running : Bool) (tracker : TimeTracker) : Download :=
  { s with
    master := ⟨⟨s.master.state, running, s.master.flushed, s.master.handedOut⟩, s.master.clock, s.master.calls⟩
    tracker := tracker }

/-- What a step can do. -/
inductive Moves (p : Profile) (sha256 : Bytes → Hash) (maxWorkers : Nat) (s : Download) (event : DownloadEvent) :
    Download → Prop
  | ticks {elapsed rate u running tracker} : event = .tick elapsed rate → s.Looping → Adjusts maxWorkers s u →
      (s.tracker.lastWaitStart = 0 → (p = .dev → s.tracker.totalWaitedMicros ≤ elapsed.toNat) →
        running = true ∧ tracker = .new) →
      Moves p sha256 maxWorkers s event (u.ticked running tracker)
  | finished : s.Looping → (∀ w ∈ s.workers, w.Dead) →
      Moves p sha256 maxWorkers s event { s with finished := true }
  | handled {i message queue now accepts begins ends} : event = .handle now accepts begins ends → s.Looping →
      (s.flushing = true ∨ accepts = 0) → s.queue = (i, message) :: queue →
      Moves p sha256 maxWorkers s event (s.handle p i message queue now accepts begins ends)
  | acted {i w v sent asked} : s.workers[i]? = some w → Acts sha256 s.Looping event i w v sent asked →
      Moves p sha256 maxWorkers s event (s.act i v sent asked)

theorem adjusts_adjust {rate : DownloadRate} : Adjusts maxWorkers s (s.adjust maxWorkers rate) := by
  unfold adjust
  split
  · split
    · next room => exact .spawns room
    · exact .keeps
  · next i last =>
    split
    · next several =>
      obtain ⟨front, split⟩ := List.getLast?_eq_some_iff.mp last
      rw [split, List.dropLast_concat]
      refine .aborts split fun empty => ?_
      rw [split, empty] at several
      exact absurd several (Nat.lt_irrefl 1)
    · exact .keeps
  · exact .keeps

theorem ticked_of_running (running : s.master.running = true) {tracker : TimeTracker} :
    s.ticked true tracker = { s with tracker := tracker } := by
  rw [ticked, ← running]

theorem Adjusts.master (adjusts : Adjusts maxWorkers s t) : t.master = s.master := by
  cases adjusts <;> rfl

/-- A tick panics only at the subtraction of the waited time, or when the tracker waits. -/
theorem moves_of_tick {elapsed : UInt64} {rate : DownloadRate} (looping : s.Looping) :
    Moves p sha256 maxWorkers s (.tick elapsed rate) (s.tick p maxWorkers elapsed rate) := by
  unfold tick
  split
  · unfold TimeTracker.reset
    by_cases idle : s.tracker.lastWaitStart = 0
    · rw [if_neg (not_not.mpr idle)]
      dsimp only
      rw [← ticked_of_running (by rw [adjusts_adjust.master]; exact looping.1)]
      exact .ticks rfl looping adjusts_adjust fun _ _ => ⟨rfl, by rw [idle]; rfl⟩
    · rw [if_pos idle]
      exact .ticks rfl looping adjusts_adjust fun still => absurd still idle
  · next panics =>
    refine .ticks rfl looping .keeps fun _ short => ?_
    cases p with
    | dev => exact absurd (Profile.sub_of_le (short rfl)) (panics _)
    | release =>
      unfold Profile.sub at panics
      split at panics
      · exact absurd rfl (panics _)
      · exact absurd rfl (panics _)

theorem setWorker_eq_act {i : Nat} {w : DownloadWorker} : s.setWorker i w = s.act i w [] [] := by
  simp [setWorker, act]

theorem enqueue_eq_act {i : Nat} {message : DownloadWorkerMessage Block} {w : DownloadWorker} :
    s.enqueue i message w = s.act i w [message] [] := by
  simp [enqueue, setWorker, act]

theorem act_of_write {i : Nat} {w : DownloadWorker} {job : Hash × Nat} (written : Bool) (atI : s.workers[i]? = some w)
    (works : w.job = some job) : Moves p sha256 maxWorkers s event (s.writeJob i job written) := by
  cases written with
  | true =>
    have shape : s.writeJob i job true = s.act i (.reading job) [] [jobToGetdata job.1] := by
      simp [writeJob, setWorker, act]
    rw [shape]
    exact .acted atI (.asks works)
  | false =>
    have shape : s.writeJob i job false = s.act i (.connecting job) [] [] := by simp [writeJob, setWorker, act]
    rw [shape]
    exact .acted atI (.works works rfl)

theorem shouldSend_cases (sha256 : Bytes → Hash) (job : Hash × Nat) (payload : Option ReceivedPayload) :
    DownloadWorker.shouldSend sha256 job payload = .ok false ∨ ∃ block, payload = some (.block block) ∧
      (DownloadWorker.shouldSend sha256 job payload = .ok true ∧ block.header.hash = job.1 ∧
          (segwitHeight ≤ job.2 → verifyWitnessCommitment sha256 block = .ok ()) ∨
        DownloadWorker.shouldSend sha256 job payload = .fault ∧ segwitHeight ≤ job.2 ∧
          verifyWitnessCommitment sha256 block = .fault) := by
  unfold DownloadWorker.shouldSend
  split
  · next block =>
    split
    · next checked =>
      by_cases same : block.header.hash = job.1
      · refine Or.inr ⟨block, rfl, Or.inl ⟨by rw [decide_eq_true same], same, fun after => ?_⟩⟩
        rwa [if_pos after] at checked
      · exact Or.inl (by rw [decide_eq_false same])
    · exact Or.inl rfl
    · next checked =>
      split at checked
      · next after => exact Or.inr ⟨block, rfl, Or.inr ⟨rfl, after, checked⟩⟩
      · cases checked
  · exact Or.inl rfl

/-- What a reading worker may do with what its connection sends. -/
theorem acts_of_receive {i : Nat} {job : Hash × Nat} {getArena : Nat → Arena} {stream : Bytes} {looping : Prop} :
    Acts sha256 looping (.receive i getArena stream) i (.reading job)
      (.receive sha256 job (readPacket sha256 getArena stream)) [] [] := by
  unfold DownloadWorker.receive
  split
  · next packet rest read =>
    rcases shouldSend_cases sha256 job packet.payload with ignored |
      ⟨block, sent, ⟨answers, same, witness⟩ | ⟨fault, after, panics⟩⟩
    · rw [ignored]
      cases packet.payload with
      | none => exact .works rfl rfl
      | some payload => cases payload <;> exact .works rfl rfl
    · rw [answers, sent]
      exact .finds same ⟨⟨_, readPacket_accepts read sent⟩, witness⟩
    · rw [fault, sent]
      refine .panics rfl after (sendsEmptyBlock_iff.mpr ⟨packet, rest, block, read, sent, ?_⟩)
      exact (readPacket_accepts read sent).txs_eq_nil panics
  · exact .works rfl rfl

theorem moves_of_step (step : s.Step p sha256 maxWorkers event t) : Moves p sha256 maxWorkers s event t := by
  unfold Step next at step
  cases event with
  | tick elapsed rate =>
    dsimp only at step
    split at step
    · next looping =>
      cases step
      exact moves_of_tick looping
    · cases step
  | finish =>
    dsimp only at step
    split at step
    · next dead =>
      cases step
      exact .finished dead.1 dead.2
    · cases step
  | handle now accepts begins ends =>
    dsimp only at step
    split at step
    · cases step
    · next i message queue atQueue =>
      split at step
      · next takes =>
        cases step
        exact .handled rfl takes.1 takes.2 atQueue
      · cases step
  | send i =>
    dsimp only at step
    split at step
    · split at step
      · next atI =>
        cases step
        rw [enqueue_eq_act]
        exact .acted atI .pulls
      · next block number atI =>
        cases step
        rw [enqueue_eq_act]
        exact .acted atI .pushes
      · cases step
    · cases step
  | orphan i =>
    dsimp only at step
    split at step
    · cases step
    · next gone =>
      split at step
      all_goals first
        | (next atI =>
            cases step
            rw [setWorker_eq_act]
            exact .acted atI (.ends gone))
        | cases step
  | connect i written =>
    dsimp only at step
    split at step
    · next job atI =>
      cases step
      exact act_of_write written atI rfl
    · cases step
  | write i written =>
    dsimp only at step
    split at step
    · next job atI =>
      cases step
      exact act_of_write written atI rfl
    · cases step
  | receive i getArena stream =>
    dsimp only at step
    split at step
    · next job atI =>
      cases step
      rw [setWorker_eq_act]
      exact .acted atI acts_of_receive
    · cases step
  | timeout i =>
    dsimp only at step
    split at step
    · next job atI =>
      cases step
      rw [setWorker_eq_act]
      exact .acted atI (.works rfl rfl)
    · cases step

end Download

end Bitlens

import Bitlens.RequestTimes

namespace Bitlens
open Lib

/-- A call of `find_next_best_job`. -/
structure JobCall (P : Type) where
  state : MasterState P
  now : Nat
  canAdvance : Bool

/-- The master's task with the last reading of its clock and the calls it has made. -/
structure JobMaster (P : Type) extends Master P where
  clock : Nat
  calls : List (JobCall P)

/-- A message, the reading of the clock while it is handled, and how many blocks
flush takes meanwhile before its sends fail. -/
structure JobLabel (P : Type) where
  now : Nat
  accepts : Nat
  message : DownloadWorkerMessage P

/-- What the master handles when its sends succeed. -/
def JobLabel.forget {P : Type} (label : JobLabel P) : Nat × DownloadWorkerMessage P :=
  (label.now, label.message)

namespace JobMaster

variable {P : Type}

def new (missingBlocks : List Hash) (firstMissingNumber : Nat) : JobMaster P :=
  ⟨.new missingBlocks firstMissingNumber, 0, []⟩

/-- Looks for a job in a state and replies with it. -/
def reply (p : Profile) (now : Nat) (canAdvance : Bool) (m : JobMaster P) : JobMaster P :=
  let calls := m.calls ++ [⟨m.state, now, canAdvance⟩]
  match m.state.findNextBestJob p now canAdvance with
  | .ok (t, job) => ⟨⟨t, true, m.flushed, m.handedOut ++ job.toList⟩, now, calls⟩
  | _ => ⟨⟨m.state, false, m.flushed, m.handedOut⟩, now, calls⟩

/-- `handle_worker_message`, also where sends on flush fail. -/
def handle (p : Profile) (label : JobLabel P) (m : JobMaster P) : JobMaster P :=
  match label.message with
  | .pullFirstJob => m.reply p label.now true
  | .pushResultAndGetNewJob block number =>
    match m.state.pushAccepted label.accepts block number with
    | .ok (t, sent, true) =>
      reply p label.now (t.backlog.length ≤ 512)
        ⟨⟨t, true, m.flushed ++ sent, m.handedOut⟩, m.clock, m.calls⟩
    | .ok (t, sent, false) => ⟨⟨t, true, m.flushed ++ sent, m.handedOut⟩, m.clock, m.calls⟩
    | _ => ⟨⟨m.state, false, m.flushed, m.handedOut⟩, m.clock, m.calls⟩

/-- The running master handles one message; its clock is positive and never goes back. -/
def Step (blockHash : P → Hash) (p : Profile) (m : JobMaster P) (label : JobLabel P) (n : JobMaster P) : Prop :=
  m.running = true ∧ m.Answers blockHash label.message ∧ 0 < label.now ∧ m.clock ≤ label.now ∧ n = m.handle p label

/-- Flush takes every block the message sends. -/
def Sends (m : JobMaster P) (label : JobLabel P) : Prop :=
  match label.message with
  | .pullFirstJob => True
  | .pushResultAndGetNewJob block number => (m.state.pushResult block number).2.1.length ≤ label.accepts

end JobMaster

namespace JobMaster

variable {P : Type} {blockHash : P → Hash} {p : Profile} {missing : List Hash} {first : Nat}

theorem reply_toMaster {now : Nat} {canAdvance : Bool} {m : JobMaster P} :
    (m.reply p now canAdvance).toMaster = match m.state.findNextBestJob p now canAdvance with
      | .ok (t, job) => ⟨t, true, m.flushed, m.handedOut ++ job.toList⟩
      | _ => ⟨m.state, false, m.flushed, m.handedOut⟩ := by
  unfold reply
  cases m.state.findNextBestJob p now canAdvance <;> rfl

/-- What holds between the messages handled and the master's state while every send
succeeds. -/
structure Selecting (blockHash : P → Hash) (p : Profile) (missing : List Hash) (first : Nat)
    (labels : List (JobLabel P)) (m : JobMaster P) : Prop where
  delivering : Master.Delivering blockHash missing first (labels.map JobLabel.forget) m.toMaster
  running : m.running = true
  waiting : m.state.Waiting m.clock
  selected : ∀ call ∈ m.calls, call.state.Selects p call.now call.canAdvance

theorem Selecting.start : Selecting blockHash p missing first [] (new missing first : JobMaster P) := by
  have delivering : Master.Delivering blockHash missing first [] (Master.new missing first : Master P) := .start
  refine ⟨delivering, rfl, ⟨delivering.tracking, ?_, ?_⟩, ?_⟩
  · intro r member
    rw [List.eq_of_mem_replicate member]
    exact Nat.le_refl _
  · intro i _ asked
    exact absurd asked (Nat.not_lt_zero _)
  · intro call member
    cases member

/-- A reply from a state with its times in step. -/
theorem reply_of_waiting {m : JobMaster P} {now : Nat} (canAdvance : Bool) (waiting : m.state.Waiting m.clock)
    (later : m.clock ≤ now) (positive : 0 < now) (backed : canAdvance = false → m.state.backlog ≠ [])
    (selected : ∀ call ∈ m.calls, call.state.Selects p call.now call.canAdvance) :
    (m.reply p now canAdvance).running = true ∧
      (m.reply p now canAdvance).state.Waiting (m.reply p now canAdvance).clock ∧
      ∀ call ∈ (m.reply p now canAdvance).calls, call.state.Selects p call.now call.canAdvance := by
  obtain ⟨t, job, run, kept, _⟩ := (waiting.mono later).findNextBestJob (p := p) positive canAdvance backed
  have selects := waiting.selects (p := p) later positive backed
  simp only [reply, run]
  refine ⟨trivial, kept, fun call member => ?_⟩
  rcases List.mem_append.mp member with old | fresh
  · exact selected call old
  · rw [List.mem_singleton.mp fresh]
    exact selects

theorem handle_push {m : JobMaster P} {now accepts number : Nat} {block : P} {t : MasterState P}
    {sent : List (P × Nat)} (run : m.state.pushResult block number = (t, sent, .ok ()))
    (takes : sent.length ≤ accepts) :
    m.handle p ⟨now, accepts, .pushResultAndGetNewJob block number⟩ =
      reply p now (t.backlog.length ≤ 512) ⟨⟨t, true, m.flushed ++ sent, m.handedOut⟩, m.clock, m.calls⟩ := by
  simp only [handle, MasterState.pushAccepted_of_accepts run takes]

theorem handle_pull_toMaster {m : JobMaster P} {now accepts : Nat} :
    (m.handle p ⟨now, accepts, .pullFirstJob⟩).toMaster = m.toMaster.handle p now .pullFirstJob := by
  simp only [handle, Master.handle, MasterState.handleWorkerMessage, reply_toMaster]
  cases m.state.findNextBestJob p now true <;> simp

/-- A push whose sends succeed is handled as the master handles it. -/
theorem handle_push_toMaster {m : JobMaster P} {now accepts number : Nat} {block : P} {t : MasterState P}
    {sent : List (P × Nat)} (run : m.state.pushResult block number = (t, sent, .ok ()))
    (takes : sent.length ≤ accepts) :
    (m.handle p ⟨now, accepts, .pushResultAndGetNewJob block number⟩).toMaster =
      m.toMaster.handle p now (.pushResultAndGetNewJob block number) := by
  rw [handle_push run takes, reply_toMaster]
  simp only [Master.handle, MasterState.handleWorkerMessage, run]
  cases t.findNextBestJob p now (t.backlog.length ≤ 512) <;> rfl

/-- The step lemma of job selection. -/
theorem Selecting.step {labels : List (JobLabel P)} {m n : JobMaster P} {label : JobLabel P}
    (kept : Selecting blockHash p missing first labels m) (guarded : Guarded Sends (Step blockHash p) m label n) :
    Selecting blockHash p missing first (labels ++ [label]) n := by
  obtain ⟨sends, _, answers, positive, later, rfl⟩ := guarded
  obtain ⟨now, accepts, message⟩ := label
  have base := kept.delivering.base
  have delivering := kept.delivering.step
    (show Master.Step blockHash p m.toMaster (now, message) _ from ⟨kept.running, answers, rfl⟩)
  cases message with
  | pullFirstJob =>
    obtain ⟨running, waiting, selected⟩ := reply_of_waiting (p := p) true kept.waiting later positive
      (by simp) kept.selected
    refine ⟨?_, running, waiting, selected⟩
    rw [List.map_append, handle_pull_toMaster]
    exact delivering
  | pushResultAndGetNewJob block number =>
    obtain ⟨i, asked, level, _⟩ := kept.delivering.handed _ answers
    dsimp only at level
    obtain ⟨t, sent, run, delivers⟩ := kept.waiting.tracking.pushResult block number (by omega)
    have takes : sent.length ≤ accepts := by
      simpa only [Sends, run] using sends
    have pushed := kept.waiting.pushResult (by omega) run delivers
    have backed : decide (t.backlog.length ≤ 512) = false → t.backlog ≠ [] := by
      intro full
      have := of_decide_eq_false full
      exact List.ne_nil_of_length_pos (by omega)
    obtain ⟨running, waiting, selected⟩ := reply_of_waiting (p := p) (t.backlog.length ≤ 512)
      (m := ⟨⟨t, true, m.flushed ++ sent, m.handedOut⟩, m.clock, m.calls⟩) pushed later positive backed
      kept.selected
    rw [← handle_push run takes] at running waiting selected
    refine ⟨?_, running, waiting, selected⟩
    rw [List.map_append, handle_push_toMaster run takes]
    exact delivering

/-- While flush takes every block, the master keeps running, every search it has made
selects a job, and so does every search in the state it has reached. -/
theorem jobs_of_run {labels : List (JobLabel P)} {m : JobMaster P}
    (run : Run (Guarded Sends (Step blockHash p)) (new missing first) labels m) :
    m.running = true ∧ (∀ call ∈ m.calls, call.state.Selects p call.now call.canAdvance) ∧
      ∀ now canAdvance, 0 < now → m.clock ≤ now → (canAdvance = false → 512 < m.state.backlog.length) →
        m.state.Selects p now canAdvance := by
  have kept := run.history (P := Selecting blockHash p missing first) .start fun _ _ _ _ => Selecting.step
  refine ⟨kept.running, kept.selected, ?_⟩
  intro now canAdvance positive later full
  refine kept.waiting.selects later positive fun stuck => ?_
  have := full stuck
  exact List.ne_nil_of_length_pos (by omega)

theorem guarded_step {m : JobMaster P} {label : JobLabel P} (running : m.running = true)
    (answers : m.Answers blockHash label.message) (positive : 0 < label.now) (later : m.clock ≤ label.now)
    (sends : m.Sends label) : Guarded Sends (Step blockHash p) m label (m.handle p label) :=
  ⟨sends, running, answers, positive, later, rfl⟩

/-- Two jobs answered in the wrong order. -/
theorem jobs_of_run_two :
    let labels : List (JobLabel Hash) :=
      [⟨5, 0, .pullFirstJob⟩, ⟨5, 0, .pullFirstJob⟩, ⟨6, 0, .pushResultAndGetNewJob (ByteArr.fill 32 9) 8⟩,
        ⟨7, 2, .pushResultAndGetNewJob (ByteArr.fill 32 7) 7⟩]
    let done := labels.foldl (fun m label => m.handle .dev label) (new [ByteArr.fill 32 7, ByteArr.fill 32 9] 7)
    done.calls.length = 4 ∧ ∀ call ∈ done.calls, call.state.Selects .dev call.now call.canAdvance := by
  intro labels done
  have run : Run (Guarded Sends (Step id .dev)) (new [ByteArr.fill 32 7, ByteArr.fill 32 9] 7) labels done :=
    .cons (guarded_step rfl trivial (by decide) (by decide) trivial)
      (.cons (guarded_step rfl trivial (by decide) (by decide) trivial)
        (.cons (guarded_step rfl (by decide) (by decide) (by decide) (Nat.le_refl 0))
          (.single (guarded_step rfl (by decide) (by decide) (by decide) (Nat.le_refl 2)))))
  exact ⟨rfl, (jobs_of_run run).2.1⟩

/-! All 514 missing blocks but the first arrive while the first is awaited. -/

def awaitedHash : Hash :=
  ByteArr.fill 32 7

def awaited : JobMaster Unit :=
  new (List.replicate 514 awaitedHash) 0

/-- Blocks `1` to `k` wait in the backlog and block `k + 1` is the last one asked for. -/
structure Stalled (k : Nat) (m : JobMaster Unit) : Prop where
  clock : m.clock = 1
  next : m.state.nextToApply = 0
  asked : m.state.nextNeverAskedFor = k + 2
  backlog : ∀ n, n ∈ m.state.backlog.map Prod.snd ↔ 1 ≤ n ∧ n ≤ k
  first : (awaitedHash, 0) ∈ m.handedOut
  last : (awaitedHash, k + 1) ∈ m.handedOut

theorem backlog_length {s : MasterState P} (tracking : s.Tracking) {k : Nat}
    (members : ∀ n, n ∈ s.backlog.map Prod.snd ↔ 1 ≤ n ∧ n ≤ k) : s.backlog.length = k := by
  have nodup : (s.backlog.map Prod.snd).Nodup := by
    rw [List.nodup_iff_pairwise_ne, List.pairwise_map]
    exact tracking.descending.imp fun below => Nat.ne_of_gt below
  have perm : (s.backlog.map Prod.snd).Perm (List.range' 1 k) := by
    rw [List.perm_ext_iff_of_nodup nodup List.nodup_range']
    intro n
    rw [members, List.mem_range'_1]
    omega
  simpa only [List.length_map, List.length_range'] using perm.length_eq

/-- The runs from the 514 missing blocks keep the selection invariant. -/
theorem selecting_of_awaited {labels : List (JobLabel Unit)} {m : JobMaster Unit}
    (run : Run (Guarded Sends (Step (fun _ => awaitedHash) p)) awaited labels m) :
    Selecting (fun _ => awaitedHash) p (List.replicate 514 awaitedHash) 0 labels m :=
  run.history (P := Selecting _ p _ 0) .start fun _ _ _ _ => Selecting.step

/-- A reply at reading `1` hands out the next block never asked for. -/
theorem reply_fresh {m : JobMaster Unit} (waiting : m.state.Waiting 1)
    (list : m.state.missingBlocks = List.replicate 514 awaitedHash) (base : m.state.firstMissingNumber = 0)
    (fresh : m.state.nextNeverAskedFor < 514) :
    (m.reply p 1 true).clock = 1 ∧ (m.reply p 1 true).state.nextToApply = m.state.nextToApply ∧
      (m.reply p 1 true).state.nextNeverAskedFor = m.state.nextNeverAskedFor + 1 ∧
      (m.reply p 1 true).state.backlog = m.state.backlog ∧
      (m.reply p 1 true).handedOut = m.handedOut ++ [(awaitedHash, m.state.nextNeverAskedFor)] := by
  have inside : m.state.nextNeverAskedFor < m.state.missingBlocks.length := by
    rw [list, List.length_replicate]
    exact fresh
  obtain ⟨t, hash, run, atNext, asked⟩ := waiting.findNextBestJob_fresh (p := p) (by omega) inside
  have asks := waiting.tracking.findNextBestJob run
  have known : hash = awaitedHash := by
    rw [list] at atNext
    exact List.eq_of_mem_replicate (List.mem_of_getElem? atNext)
  simp only [reply, run]
  refine ⟨trivial, asks.next, asked, asks.backlog, ?_⟩
  rw [known, base, Nat.zero_add]
  rfl

theorem awaited_start : awaited.state.nextToApply = 0 ∧ awaited.state.nextNeverAskedFor = 0 ∧
    awaited.state.backlog = [] ∧ awaited.handedOut = [] ∧ awaited.clock = 0 :=
  ⟨rfl, rfl, rfl, rfl, rfl⟩

/-- A worker that starts while blocks are left is handed the next one. -/
theorem pull_fresh {labels : List (JobLabel Unit)} {m : JobMaster Unit}
    (run : Run (Guarded Sends (Step (fun _ => awaitedHash) p)) awaited labels m) (clock : m.clock ≤ 1)
    (fresh : m.state.nextNeverAskedFor < 514) :
    ∃ labels' n, Run (Guarded Sends (Step (fun _ => awaitedHash) p)) awaited labels' n ∧ n.clock = 1 ∧
      n.state.nextToApply = m.state.nextToApply ∧ n.state.nextNeverAskedFor = m.state.nextNeverAskedFor + 1 ∧
      n.state.backlog = m.state.backlog ∧ n.handedOut = m.handedOut ++ [(awaitedHash, m.state.nextNeverAskedFor)] := by
  have kept := selecting_of_awaited run
  have step : Guarded Sends (Step (fun _ => awaitedHash) p) m ⟨1, 0, .pullFirstJob⟩ _ :=
    guarded_step kept.running trivial Nat.one_pos clock trivial
  exact ⟨_, _, .snoc run step,
    reply_fresh (kept.waiting.mono clock) kept.delivering.list kept.delivering.base fresh⟩

theorem stalled_zero : ∃ labels m, Run (Guarded Sends (Step (fun _ => awaitedHash) p)) awaited labels m ∧ Stalled 0 m := by
  obtain ⟨start, unasked, empty, unhanded, zero⟩ := awaited_start
  obtain ⟨_, m, run, clock, next, asked, backlog, handed⟩ := pull_fresh (p := p) .nil (by omega) (by omega)
  rw [unasked] at asked
  obtain ⟨labels, n, run', clock', next', asked', backlog', handed'⟩ := pull_fresh run (by omega) (by omega)
  refine ⟨labels, n, run', clock', by omega, by omega, ?_, ?_, ?_⟩
  · intro k
    rw [backlog', backlog, empty]
    simp only [List.map_nil, List.not_mem_nil, false_iff]
    omega
  · rw [handed', handed, unhanded, unasked]
    simp
  · rw [handed', asked]
    simp

/-- While fewer than 513 blocks wait, the answer to the last job adds one more. -/
theorem Stalled.push {k : Nat} {labels : List (JobLabel Unit)} {m : JobMaster Unit}
    (run : Run (Guarded Sends (Step (fun _ => awaitedHash) p)) awaited labels m) (stalled : Stalled k m) (room : k < 512) :
    ∃ labels' n, Run (Guarded Sends (Step (fun _ => awaitedHash) p)) awaited labels' n ∧ Stalled (k + 1) n := by
  have kept := selecting_of_awaited run
  have base := kept.delivering.base
  have next := stalled.next
  have asked := stalled.asked
  obtain ⟨t, sent, push, delivers⟩ := kept.waiting.tracking.pushResult () (k + 1) (by omega)
  obtain ⟨unsent, same⟩ := MasterState.pushResult_early (by omega) push
  subst unsent
  have waiting := kept.waiting.pushResult (by omega) push delivers
  have members : ∀ n, n ∈ t.backlog.map Prod.snd ↔ 1 ≤ n ∧ n ≤ k + 1 := by
    intro n
    have first := delivers.first
    rw [delivers.mem_backlog (by omega), stalled.backlog]
    omega
  have count := backlog_length waiting.tracking members
  have step : Guarded Sends (Step (fun _ => awaitedHash) p) m ⟨1, 0, .pushResultAndGetNewJob () (k + 1)⟩ _ :=
    guarded_step kept.running stalled.last Nat.one_pos (Nat.le_of_eq stalled.clock) (by simp [Sends, push])
  rw [handle_push push (Nat.zero_le _), decide_eq_true (by omega : t.backlog.length ≤ 512)] at step
  obtain ⟨clock, applied, further, backlog, handed⟩ := reply_fresh (p := p)
    (m := ⟨⟨t, true, m.flushed ++ [], m.handedOut⟩, m.clock, m.calls⟩) (stalled.clock ▸ waiting)
    (delivers.missing.trans kept.delivering.list) (delivers.first.trans base)
    (by have := delivers.asked; dsimp only; omega)
  have total := delivers.asked
  dsimp only at applied further backlog handed
  refine ⟨_, _, .snoc run step, clock, by omega, by omega, ?_, ?_, ?_⟩
  · rw [backlog]
    exact members
  · rw [handed]
    exact List.mem_append_left _ stalled.first
  · rw [handed, total, asked]
    exact List.mem_append_right _ (List.mem_singleton_self _)

theorem stalled_run {k : Nat} (room : k ≤ 512) :
    ∃ labels m, Run (Guarded Sends (Step (fun _ => awaitedHash) p)) awaited labels m ∧ Stalled k m := by
  induction k with
  | zero => exact stalled_zero
  | succ k ih =>
    obtain ⟨labels, m, run, stalled⟩ := ih (by omega)
    exact stalled.push run (by omega)

/-- The master after a send of the block it waited for has failed. -/
def lose (m : JobMaster P) : JobMaster P :=
  ⟨⟨{ m.state with nextToApply := m.state.nextToApply + 1 }, true, m.flushed ++ [], m.handedOut⟩, m.clock, m.calls⟩

theorem handle_lost {m : JobMaster P} {now number : Nat} {block : P}
    (due : number = m.state.firstMissingNumber + m.state.nextToApply) :
    m.handle p ⟨now, 0, .pushResultAndGetNewJob block number⟩ = m.lose := by
  simp only [handle, MasterState.pushAccepted_lost due, lose]

theorem handle_late {m : JobMaster P} {now accepts number : Nat} {block : P}
    (late : number < m.state.firstMissingNumber + m.state.nextToApply) :
    m.handle p ⟨now, accepts, .pushResultAndGetNewJob block number⟩ =
      reply p now (m.state.backlog.length ≤ 512) ⟨⟨m.state, true, m.flushed ++ [], m.handedOut⟩, m.clock, m.calls⟩ := by
  simp only [handle, MasterState.pushAccepted_late late]

theorem call_mem_reply {m : JobMaster P} {now : Nat} {canAdvance : Bool} :
    ⟨m.state, now, canAdvance⟩ ∈ (m.reply p now canAdvance).calls := by
  unfold reply
  cases m.state.findNextBestJob p now canAdvance <;> simp

/-- With 513 blocks waiting the first one is asked for again. -/
theorem stalled_full : ∃ labels m, Run (Guarded Sends (Step (fun _ => awaitedHash) p)) awaited labels m ∧ m.clock = 1 ∧
    m.state.nextToApply = 0 ∧ (∀ n, n ∈ m.state.backlog.map Prod.snd ↔ 1 ≤ n ∧ n ≤ 513) ∧
      (awaitedHash, 0) ∈ m.handedOut := by
  obtain ⟨labels, m, run, stalled⟩ := stalled_run (p := p) (Nat.le_refl 512)
  have kept := selecting_of_awaited run
  have base := kept.delivering.base
  have next := stalled.next
  have asked := stalled.asked
  obtain ⟨t, sent, push, delivers⟩ := kept.waiting.tracking.pushResult () 513 (by omega)
  obtain ⟨unsent, same⟩ := MasterState.pushResult_early (by omega) push
  subst unsent
  have waiting := kept.waiting.pushResult (by omega) push delivers
  have members : ∀ n, n ∈ t.backlog.map Prod.snd ↔ 1 ≤ n ∧ n ≤ 513 := by
    intro n
    have first := delivers.first
    rw [delivers.mem_backlog (by omega), stalled.backlog]
    omega
  have count := backlog_length waiting.tracking members
  have step : Guarded Sends (Step (fun _ => awaitedHash) p) m ⟨1, 0, .pushResultAndGetNewJob () 513⟩ _ :=
    guarded_step kept.running stalled.last Nat.one_pos (Nat.le_of_eq stalled.clock) (by simp [Sends, push])
  rw [handle_push push (Nat.zero_le _), decide_eq_false (by omega : ¬ t.backlog.length ≤ 512)] at step
  obtain ⟨u, job, found, _, _⟩ := (waiting.mono (Nat.le_of_eq stalled.clock)).findNextBestJob (p := p) Nat.one_pos
    false fun _ => List.ne_nil_of_length_pos (by omega)
  have asks := waiting.tracking.findNextBestJob found
  simp only [reply, found] at step
  refine ⟨_, _, .snoc run step, rfl, ?_, ?_, ?_⟩
  · have := asks.next
    dsimp only
    omega
  · rw [asks.backlog]
    exact members
  · exact List.mem_append_left _ stalled.first

/-- Flush stops taking blocks when the first one arrives; the next answer finds the
master with nothing to ask for and too much in its backlog. -/
theorem jobs_of_run_fails :
    ¬ ∀ (P : Type) (blockHash : P → Hash) (p : Profile) (missing : List Hash) (first : Nat)
      (labels : List (JobLabel P)) (m : JobMaster P), Run (Step blockHash p) (new missing first) labels m →
        ∀ call ∈ m.calls, call.state.Selects p call.now call.canAdvance := by
  intro claim
  obtain ⟨labels, m, run, clock, next, members, first⟩ := stalled_full (p := .dev)
  have kept := selecting_of_awaited run
  have base := kept.delivering.base
  have count := backlog_length kept.waiting.tracking members
  -- the send fails after the block is counted, and the handler returns
  have lost : Step (fun _ => awaitedHash) .dev m ⟨1, 0, .pushResultAndGetNewJob () 0⟩ _ :=
    ⟨kept.running, first, Nat.one_pos, Nat.le_of_eq clock, (handle_lost (by omega)).symm⟩
  -- the second answer to the same job is discarded
  have late : 0 < m.lose.state.firstMissingNumber + m.lose.state.nextToApply := by
    dsimp only [lose]
    omega
  have again : Step (fun _ => awaitedHash) .dev m.lose ⟨1, 0, .pushResultAndGetNewJob () 0⟩ _ :=
    ⟨rfl, first, Nat.one_pos, Nat.le_of_eq clock, (handle_late late).symm⟩
  have silent : ∀ i, m.lose.state.nextToApply ≤ i → i < m.lose.state.nextNeverAskedFor →
      m.lose.state.lastRequestTimes[i]? = some 0 := by
    intro i after asked
    dsimp only [lose] at after asked ⊢
    have small := kept.waiting.tracking.asked
    rw [kept.delivering.list, List.length_replicate] at small
    rw [kept.waiting.waits i (by omega) asked, members]
    omega
  have full : decide (m.lose.state.backlog.length ≤ 512) = false := decide_eq_false (by dsimp only [lose]; omega)
  rw [full] at again
  obtain ⟨t, job, found, _⟩ := claim Unit (fun _ => awaitedHash) .dev _ 0 _ _ (.snoc (.snoc run.unguarded lost) again)
    ⟨m.lose.state, 1, false⟩ call_mem_reply
  rw [MasterState.findNextBestJob_silent silent] at found
  cases found

end JobMaster

end Bitlens

import Bitlens.MasterTurns
import Bitlens.PacketStream
import Bitlens.TargetRange
import Bitlens.WorkerMoves

namespace Bitlens
open Lib

namespace JobMaster

variable {P : Type} {p : Profile} {m : JobMaster P} {label : JobLabel P} {begins ends : UInt64} {tracker : TimeTracker}

/-! The master with its time tracker. -/

theorem handleTracked_cases : (m.handleTracked p label begins ends tracker).1 = m.handle p label ∨
    (m.handleTracked p label begins ends tracker).1 = m.halt ∨
    (m.handleTracked p label begins ends tracker).1 = m.haltBehindSends label := by
  unfold handleTracked
  split
  · split
    · split
      · exact Or.inl rfl
      · split
        · exact Or.inl rfl
        · exact Or.inr (Or.inr rfl)
    · exact Or.inr (Or.inl rfl)
  · exact Or.inl rfl

theorem turns_of_haltBehindSends : ∃ sent, m.Turns label.message sent none (m.haltBehindSends label) ∧
    sent <+: m.due label.message ∧ (label.accepts = 0 → sent = []) := by
  obtain ⟨now, accepts, message⟩ := label
  cases message with
  | pullFirstJob => exact ⟨[], .idle, List.nil_prefix, fun _ => rfl⟩
  | pushResultAndGetNewJob block number =>
    unfold haltBehindSends
    dsimp only [due]
    cases pushed : m.state.pushAccepted accepts block number with
    | ok result =>
      obtain ⟨t, sent, goesOn⟩ := result
      obtain ⟨missing, first, origin⟩ := MasterState.pushAccepted_origin pushed
      obtain ⟨front, refused, _⟩ := MasterState.pushAccepted_prefix pushed
      refine ⟨sent, ⟨missing, first, rfl, (List.append_nil _).symm, (fun j absent => by cases absent), ?_⟩, front, refused⟩
      intro entry member
      rcases List.mem_cons.mp (origin entry member) with same | old
      · exact Or.inr (by rw [same])
      · exact Or.inl old
    | err => exact ⟨[], .idle, List.nil_prefix, fun _ => rfl⟩
    | fault => exact ⟨[], .idle, List.nil_prefix, fun _ => rfl⟩

theorem running_haltBehindSends : (m.haltBehindSends label).running = false := by
  unfold haltBehindSends
  split
  · rfl
  · split <;> rfl

/-- A turn of the master, whether or not its tracker panics. -/
theorem turns_of_handleTracked : ∃ sent job,
    m.Turns label.message sent job (m.handleTracked p label begins ends tracker).1 ∧
      sent <+: m.due label.message ∧ (label.accepts = 0 → sent = []) ∧
      (m.Sends label → (m.handleTracked p label begins ends tracker).1.running = true → job = none →
        m.state.missingBlocks.length ≤ (m.handleTracked p label begins ends tracker).1.state.nextToApply) := by
  rcases @handleTracked_cases _ p m label begins ends tracker with same | same | same
  · rw [same]
    exact turns_of_handle
  · rw [same]
    exact ⟨[], none, .idle, List.nil_prefix, fun _ => rfl, fun _ absent => by cases absent⟩
  · rw [same]
    obtain ⟨sent, turns, front, refused⟩ := @turns_of_haltBehindSends _ m label
    refine ⟨sent, none, turns, front, refused, fun _ running => ?_⟩
    rw [running_haltBehindSends] at running
    cases running

/-- A tracker that does not wait does not panic while the clock goes on. -/
theorem handleTracked_of_idle {micros : UInt64} (idle : tracker.lastWaitStart = 0)
    (waited : tracker.totalWaitedMicros ≤ micros.toNat) (positive : 0 < begins) (later : micros ≤ begins)
    (forward : begins ≤ ends) (takes : m.Applies label.message → label.accepts ≠ 0) :
    (m.handleTracked p label begins ends tracker).1 = m.handle p label ∧
      (m.handleTracked p label begins ends tracker).2.lastWaitStart = 0 ∧
      (m.handleTracked p label begins ends tracker).2.totalWaitedMicros ≤
        (if m.Applies label.message then ends else micros).toNat := by
  unfold handleTracked
  by_cases applies : m.Applies label.message
  · have past := UInt64.le_iff_toNat_le.mp later
    have order := UInt64.le_iff_toNat_le.mp forward
    have small := ends.toNat_lt
    have started : begins.toNat ≠ 0 := (UInt64.lt_iff_toNat_lt.mp positive).ne'
    have total : tracker.totalWaitedMicros + (ends.toNat - begins.toNat) ≤ ends.toNat := by omega
    have stopped : TimeTracker.stop p ends ⟨tracker.totalWaitedMicros, begins.toNat⟩ =
        .ok ⟨tracker.totalWaitedMicros + (ends.toNat - begins.toNat), 0⟩ := by
      simp only [TimeTracker.stop, if_neg started, Profile.sub_of_le order, Outcome.ok_bind,
        Profile.add_of_lt (total.trans_lt small)]
      rfl
    simp only [TimeTracker.start, if_pos applies, if_neg (not_not.mpr idle), if_neg (takes applies), stopped]
    exact ⟨trivial, trivial, total⟩
  · rw [if_neg applies, if_neg applies]
    exact ⟨rfl, idle, waited⟩

end JobMaster

namespace Download

variable {p : Profile} {sha256 : Bytes → Hash} {maxWorkers : Nat} {s t : Download} {event : DownloadEvent}
  {missing : List Hash} {first : Nat}

/-! What holds in every reached state. -/

/-- A block that may be flushed at a number. -/
structure Answered (sha256 : Bytes → Hash) (missing : List Hash) (first : Nat) (entry : Block × Nat) : Prop where
  listed : Listed missing first (entry.1.header.hash, entry.2)
  verified : Verified sha256 entry.1 entry.2

/-- A block that a worker sends was asked of it. -/
def Pushed (sha256 : Bytes → Hash) (s : Download) (block : Block) (number : Nat) : Prop :=
  (block.header.hash, number) ∈ s.master.handedOut ∧ Verified sha256 block number

/-- What holds between the peers' packets, the workers and the flushed blocks. -/
structure Sound (sha256 : Bytes → Hash) (missing : List Hash) (first : Nat) (s : Download) : Prop where
  list : s.master.state.missingBlocks = missing
  base : s.master.state.firstMissingNumber = first
  delivering : s.flushing = true →
    ∃ labels, Master.Delivering Block.hash missing first labels s.master.toMaster
  numbers : s.master.flushed.map Prod.snd = List.range' first s.master.flushed.length
  listed : ∀ job ∈ s.master.handedOut, Listed missing first job
  blocks : ∀ entry ∈ s.master.flushed ++ s.master.state.backlog, Answered sha256 missing first entry
  queued : ∀ i block number, (i, .pushResultAndGetNewJob block number) ∈ s.queue → s.Pushed sha256 block number
  working : ∀ w ∈ s.workers, ∀ job, w.job = some job → job ∈ s.master.handedOut
  pushing : ∀ block number, .pushing block number ∈ s.workers → s.Pushed sha256 block number
  requests : ∀ request ∈ s.requests, ∃ job, Listed missing first job ∧ request = jobToGetdata job.1

theorem Sound.start : Sound sha256 missing first (Download.start missing first) := by
  have fresh : ∀ w ∈ (Download.start missing first).workers, w = .fetching :=
    fun w member => List.eq_of_mem_replicate member
  refine ⟨rfl, rfl, fun _ => ⟨[], .start⟩, rfl, ?_, ?_, ?_, ?_, ?_, ?_⟩
  · exact fun _ absent => (List.not_mem_nil absent).elim
  · exact fun _ absent => (List.not_mem_nil absent).elim
  · exact fun _ _ _ absent => (List.not_mem_nil absent).elim
  · intro w member job works
    rw [fresh w member] at works
    cases works
  · intro block number member
    cases fresh _ member
  · exact fun _ absent => (List.not_mem_nil absent).elim

/-- A step of one worker keeps the invariant. -/
theorem Sound.act (sound : Sound sha256 missing first s) {i : Nat} {w v : DownloadWorker} {looping : Prop}
    {sent : List (DownloadWorkerMessage Block)} {asked : List PayloadToSend} (atI : s.workers[i]? = some w)
    (acts : Acts sha256 looping event i w v sent asked) : Sound sha256 missing first (s.act i v sent asked) := by
  have member := List.mem_of_getElem? atI
  have after : ∀ u ∈ (s.act i v sent asked).workers, u ∈ s.workers ∨ u = v :=
    fun u inSet => List.mem_or_eq_of_mem_set inSet
  have workers : (∀ job, v.job = some job → job ∈ s.master.handedOut) →
      (∀ block number, v = .pushing block number → s.Pushed sha256 block number) →
      (∀ block number, .pushResultAndGetNewJob block number ∈ sent → s.Pushed sha256 block number) →
      (∀ request ∈ asked, ∃ job, Listed missing first job ∧ request = jobToGetdata job.1) →
      Sound sha256 missing first (s.act i v sent asked) := by
    intro works pushes sends asks
    refine ⟨sound.list, sound.base, sound.delivering, sound.numbers, sound.listed, sound.blocks, ?_, ?_, ?_, ?_⟩
    · intro j block number inQueue
      rcases List.mem_append.mp inQueue with old | fresh
      · exact sound.queued j block number old
      · obtain ⟨message, inSent, same⟩ := List.mem_map.mp fresh
        cases same
        exact sends block number inSent
    · intro u inSet job known
      rcases after u inSet with old | rfl
      · exact sound.working u old job known
      · exact works job known
    · intro block number inSet
      rcases after _ inSet with old | same
      · exact sound.pushing block number old
      · exact pushes block number same.symm
    · intro request inList
      rcases List.mem_append.mp inList with old | fresh
      · exact sound.requests request old
      · exact asks request fresh
  have silent : ∀ block number, (.pushResultAndGetNewJob block number : DownloadWorkerMessage Block) ∈ [] →
      s.Pushed sha256 block number := fun _ _ absent => (List.not_mem_nil absent).elim
  have unasked : ∀ request ∈ ([] : List PayloadToSend),
      ∃ job, Listed missing first job ∧ request = jobToGetdata job.1 := fun _ absent => (List.not_mem_nil absent).elim
  cases acts with
  | pulls =>
    refine workers (fun _ absent => by cases absent) (fun _ _ absent => by cases absent) ?_ unasked
    intro block number inSent
    cases List.mem_singleton.mp inSent
  | @pushes block number =>
    refine workers (fun _ absent => by cases absent) (fun _ _ absent => by cases absent) ?_ unasked
    intro block' number' inSent
    cases List.mem_singleton.mp inSent
    exact sound.pushing block number member
  | ends _ => exact workers (fun _ absent => by cases absent) (fun _ _ absent => by cases absent) silent unasked
  | @asks _ job works =>
    have handed := sound.working w member job works
    refine workers ?_ (fun _ _ absent => by cases absent) silent ?_
    · intro job' same
      cases same
      exact handed
    · intro request inList
      cases List.mem_singleton.mp inList
      exact ⟨job, sound.listed job handed, rfl⟩
  | @works _ _ job before same =>
    refine workers ?_ ?_ silent unasked
    · intro job' known
      cases Option.some.inj (known.symm.trans same)
      exact sound.working w member job before
    · intro block number absent
      rw [absent] at same
      cases same
  | @finds job block same verified =>
    refine workers (fun _ absent => by cases absent) ?_ silent unasked
    intro block' number' known
    cases known
    exact ⟨by rw [same]; exact sound.working _ member job rfl, verified⟩
  | panics _ _ _ => exact workers (fun _ absent => by cases absent) (fun _ _ absent => by cases absent) silent unasked

/-- A message whose sends on flush succeed is handled as the master handles it. -/
theorem delivering_of_handle {labels : List (Nat × DownloadWorkerMessage Block)} {m : JobMaster Block}
    {label : JobLabel Block}
    (kept : Master.Delivering Block.hash missing first labels m.toMaster) (running : m.running = true)
    (answers : m.Answers Block.hash label.message) (sends : m.Sends label) :
    Master.Delivering Block.hash missing first (labels ++ [label.forget]) (m.handle p label).toMaster := by
  obtain ⟨now, accepts, message⟩ := label
  have step : Master.Step Block.hash p m.toMaster (now, message) _ := ⟨running, answers, rfl⟩
  cases message with
  | pullFirstJob =>
    rw [JobMaster.handle_pull_toMaster]
    exact kept.step step
  | pushResultAndGetNewJob block number =>
    obtain ⟨i, asked, level, _⟩ := kept.handed _ answers
    have base := kept.base
    dsimp only at level
    obtain ⟨t, sent, run, _⟩ := kept.tracking.pushResult block number (by omega)
    have takes : sent.length ≤ accepts := by simpa only [JobMaster.Sends, run] using sends
    rw [JobMaster.handle_push_toMaster run takes]
    exact kept.step step

theorem delivering_halted {labels : List (Nat × DownloadWorkerMessage Block)} {m : JobMaster Block}
    (kept : Master.Delivering Block.hash missing first labels m.toMaster) (running : Bool) :
    Master.Delivering Block.hash missing first labels ⟨m.state, running, m.flushed, m.handedOut⟩ :=
  ⟨kept.list, kept.base, kept.tracking, kept.numbers, kept.blocks, kept.handed, kept.pushed⟩

/-- So it is when the tracker panics. -/
theorem delivering_of_handleTracked {labels : List (Nat × DownloadWorkerMessage Block)} {m : JobMaster Block}
    {label : JobLabel Block} {begins ends : UInt64} {tracker : TimeTracker}
    (kept : Master.Delivering Block.hash missing first labels m.toMaster) (running : m.running = true)
    (answers : m.Answers Block.hash label.message) (sends : m.Sends label) :
    ∃ labels', Master.Delivering Block.hash missing first labels'
      (m.handleTracked p label begins ends tracker).1.toMaster := by
  rcases @JobMaster.handleTracked_cases _ p m label begins ends tracker with same | same | same
  · rw [same]
    exact ⟨_, delivering_of_handle kept running answers sends⟩
  · rw [same]
    exact ⟨_, delivering_halted kept false⟩
  · rw [same]
    obtain ⟨now, accepts, message⟩ := label
    cases message with
    | pullFirstJob => exact ⟨_, delivering_halted kept false⟩
    | pushResultAndGetNewJob block number =>
      obtain ⟨i, asked, level, _⟩ := kept.handed _ answers
      have base := kept.base
      dsimp only at level
      obtain ⟨t, sent, run, delivers⟩ := kept.tracking.pushResult block number (by omega)
      have takes : sent.length ≤ accepts := by simpa only [JobMaster.Sends, run] using sends
      refine ⟨labels ++ [(now, .pushResultAndGetNewJob block number)], ?_⟩
      simp only [JobMaster.haltBehindSends, MasterState.pushAccepted_of_accepts run takes]
      exact kept.delivers now answers delivers false

/-- The blocks a message sends continue those flushed. -/
theorem due_numbers {labels : List (Nat × DownloadWorkerMessage Block)} {m : JobMaster Block}
    (kept : Master.Delivering Block.hash missing first labels m.toMaster)
    {message : DownloadWorkerMessage Block} (answers : m.Answers Block.hash message) :
    (m.due message).map Prod.snd = List.range' (first + m.flushed.length) (m.due message).length := by
  have count : m.flushed.length = m.state.nextToApply := by
    rw [← List.length_map Prod.snd, kept.numbers, List.length_range']
  cases message with
  | pullFirstJob => rfl
  | pushResultAndGetNewJob block number =>
    obtain ⟨i, asked, level, _⟩ := kept.handed _ answers
    have base := kept.base
    dsimp only at level
    obtain ⟨t, sent, run, delivers⟩ := kept.tracking.pushResult block number (by omega)
    simp only [JobMaster.due, run]
    rw [delivers.numbers, base, count]

theorem range'_of_prefix {α : Type} {f : α → Nat} {front xs : List α} {a : Nat} (isFront : front <+: xs)
    (numbers : xs.map f = List.range' a xs.length) : front.map f = List.range' a front.length := by
  obtain ⟨back, rfl⟩ := isFront
  rw [List.map_append, List.length_append, ← List.range'_append_1] at numbers
  exact (List.append_inj numbers (by rw [List.length_map, List.length_range'])).1

theorem getElem?_workers_of_handle {i now accepts : Nat} {begins ends : UInt64} {message : DownloadWorkerMessage Block}
    {queue : List (Nat × DownloadWorkerMessage Block)} {k : Nat} {w : DownloadWorker}
    (atK : (s.handle p i message queue now accepts begins ends).workers[k]? = some w) :
    ∃ u, s.workers[k]? = some u ∧ (w = u ∨
      w = u.reply (s.handle p i message queue now accepts begins ends).master.handedOut[s.master.handedOut.length]?) := by
  change (s.workers.modify i _)[k]? = some w at atK
  rw [List.getElem?_modify] at atK
  obtain ⟨u, before, same⟩ := Option.map_eq_some_iff.mp atK
  refine ⟨u, before, ?_⟩
  split at same
  · exact Or.inr same.symm
  · exact Or.inl same.symm

theorem mem_workers_of_handle {i now accepts : Nat} {begins ends : UInt64} {message : DownloadWorkerMessage Block}
    {queue : List (Nat × DownloadWorkerMessage Block)} {w : DownloadWorker}
    (member : w ∈ (s.handle p i message queue now accepts begins ends).workers) :
    ∃ u ∈ s.workers, w = u ∨
      w = u.reply (s.handle p i message queue now accepts begins ends).master.handedOut[s.master.handedOut.length]? := by
  obtain ⟨k, atK⟩ := List.mem_iff_getElem?.mp member
  obtain ⟨u, before, same⟩ := getElem?_workers_of_handle atK
  exact ⟨u, List.mem_of_getElem? before, same⟩

/-- The master's turn keeps the invariant. -/
theorem Sound.handle (sound : Sound sha256 missing first s) {i now accepts : Nat} {begins ends : UInt64}
    {message : DownloadWorkerMessage Block} {queue : List (Nat × DownloadWorkerMessage Block)} (looping : s.Looping)
    (takes : s.flushing = true ∨ accepts = 0)
    (atQueue : s.queue = (i, message) :: queue) :
    Sound sha256 missing first (s.handle p i message queue now accepts begins ends) := by
  obtain ⟨sent, job, turns, isFront, unsent, _⟩ :=
    @JobMaster.turns_of_handleTracked _ p s.master ⟨now, accepts, message⟩ begins ends s.tracker
  dsimp only at isFront unsent
  have after : s.master.Turns message sent job (s.handle p i message queue now accepts begins ends).master := turns
  have grows : ∀ j ∈ s.master.handedOut, j ∈ (s.handle p i message queue now accepts begins ends).master.handedOut := by
    intro j member
    rw [after.handedOut]
    exact List.mem_append_left _ member
  have pushed : ∀ block number, s.Pushed sha256 block number →
      (s.handle p i message queue now accepts begins ends).Pushed sha256 block number :=
    fun block number known => ⟨grows _ known.1, known.2⟩
  have answers : s.master.Answers Block.hash message := by
    cases message with
    | pullFirstJob => trivial
    | pushResultAndGetNewJob block number =>
      exact (sound.queued i block number (by rw [atQueue]; exact List.mem_cons_self)).1
  have listed : ∀ j ∈ (s.handle p i message queue now accepts begins ends).master.handedOut,
      Listed missing first j := by
    intro j member
    rw [after.handedOut] at member
    rcases List.mem_append.mp member with old | fresh
    · exact sound.listed j old
    · have known := after.listed j (Option.mem_toList.mp fresh)
      rwa [sound.list, sound.base] at known
  refine ⟨after.missing.trans sound.list, after.first.trans sound.base, ?_, ?_, listed, ?_, ?_, ?_, ?_, sound.requests⟩
  · intro flushing
    obtain ⟨before, sends⟩ := Bool.and_eq_true_iff.mp flushing
    obtain ⟨labels, kept⟩ := sound.delivering before
    exact delivering_of_handleTracked kept looping.1 answers (of_decide_eq_true sends)
  · have continues : sent.map Prod.snd = List.range' (first + s.master.flushed.length) sent.length := by
      rcases takes with before | none_
      · obtain ⟨labels, kept⟩ := sound.delivering before
        exact range'_of_prefix isFront (due_numbers kept answers)
      · rw [unsent none_]
        rfl
    rw [after.flushed, List.map_append, sound.numbers, continues, List.length_append, List.range'_append_1]
  · intro entry member
    rw [after.flushed, List.append_assoc, List.mem_append] at member
    rcases member with old | rest
    · exact sound.blocks entry (List.mem_append_left _ old)
    · rcases after.origin entry rest with waited | now_
      · exact sound.blocks entry (List.mem_append_right _ waited)
      · have known := sound.queued i entry.1 entry.2 (by rw [atQueue, now_]; exact List.mem_cons_self)
        exact ⟨sound.listed _ known.1, known.2⟩
  · intro j block number member
    exact pushed block number (sound.queued j block number (by rw [atQueue]; exact List.mem_cons_of_mem _ member))
  · intro w member j works
    obtain ⟨u, old, rfl | rfl⟩ := mem_workers_of_handle member
    · exact grows j (sound.working _ old j works)
    · rcases DownloadWorker.reply_job works with before | found
      · exact grows j (sound.working u old j before)
      · exact List.mem_of_getElem? found
  · intro block number member
    obtain ⟨u, old, same | same⟩ := mem_workers_of_handle member
    · exact pushed block number (sound.pushing block number (same ▸ old))
    · exact pushed block number (sound.pushing block number (DownloadWorker.reply_pushing same.symm ▸ old))

theorem Sound.adjust (sound : Sound sha256 missing first s) (adjusts : Adjusts maxWorkers s t) :
    Sound sha256 missing first t := by
  cases adjusts with
  | keeps => exact sound
  | spawns _ =>
    refine { sound with working := fun w member job works => ?_, pushing := fun block number member => ?_ }
    · rcases List.mem_append.mp member with old | fresh
      · exact sound.working w old job works
      · rw [List.mem_singleton.mp fresh] at works
        cases works
    · rcases List.mem_append.mp member with old | fresh
      · exact sound.pushing block number old
      · cases List.mem_singleton.mp fresh
  | aborts _ _ =>
    refine { sound with working := fun w member job works => ?_, pushing := fun block number member => ?_ }
    · rcases List.mem_or_eq_of_mem_set member with old | fresh
      · exact sound.working w old job works
      · rw [fresh] at works
        cases works
    · rcases List.mem_or_eq_of_mem_set member with old | fresh
      · exact sound.pushing block number old
      · cases fresh

theorem Sound.ticked (sound : Sound sha256 missing first s) (running : Bool) (tracker : TimeTracker) :
    Sound sha256 missing first (s.ticked running tracker) := by
  refine { sound with delivering := fun flushing => ?_ }
  obtain ⟨labels, kept⟩ := sound.delivering flushing
  exact ⟨labels, delivering_halted kept running⟩

/-- The invariant of the whole download. -/
theorem Sound.step (sound : Sound sha256 missing first s) (step : s.Step p sha256 maxWorkers event t) :
    Sound sha256 missing first t := by
  cases moves_of_step step with
  | ticks _ _ adjusts _ => exact (sound.adjust adjusts).ticked _ _
  | finished _ _ => exact { sound with list := sound.list }
  | handled _ looping takes atQueue => exact sound.handle looping takes atQueue
  | acted atI acts => exact sound.act atI acts

theorem Sound.run {events : List DownloadEvent}
    (run : Run (Step p sha256 maxWorkers) (Download.start missing first) events s) : Sound sha256 missing first s :=
  run.invariant .start fun _ _ _ sound step => sound.step step

/-- The clock is positive and does not go back, in milliseconds and in microseconds. Where a subtraction can overflow,
the waits that it has shown since the last tick are not longer than the time since then. -/
def Clocked (p : Profile) (s : Download) : DownloadEvent → Prop
  | .handle now _ begins ends => 0 < now ∧ s.master.clock ≤ now ∧ 0 < begins ∧ s.micros ≤ begins ∧ begins ≤ ends
  | .tick elapsed _ => p = .dev → s.tracker.totalWaitedMicros ≤ elapsed.toNat
  | _ => True

end Download

/-! Two workers fetch two blocks, around the height of segwit. -/

/-- The packet with a block. -/
def blockStream (block : Block) : Bytes := writePacket Sha256.sha256 (.block block)

/-- The block behind the genesis block of the main network. -/
def firstBlock : Block where
  header := { minedHeader with txsCount := 1 }
  txs := [
    ⟨1, 0, [⟨emptyHash, 0xFFFFFFFF, 0xFFFFFFFF, [4, 0xff, 0xff, 0, 0x1d, 1, 4]⟩],
      [⟨5000000000, [0x41, 4] ++ beBytes 32 0x96b538e853519c726a2c91e61ec11600ae1390813a627c66fb8be7947be63c52 ++
        beBytes 32 0xda7589379515d4e0a604f8141781e62294721166bf621e73a82cbf2342c858ee ++ [0xac]⟩], none,
      minedHeader.merkleRoot, minedHeader.merkleRoot⟩]

namespace Download

instance (p : Profile) (s : Download) (event : DownloadEvent) : Decidable (Clocked p s event) := by
  cases event <;> unfold Clocked <;> infer_instance

def missingTwo : List Hash := [firstBlock.header.hash, witnessBlock.header.hash]

/-- The first block is asked of one worker, whose peer sends a block without transactions before it, and the second one
of another, whose peer is faster. -/
def fetchTwo : List DownloadEvent :=
  [.tick 10 .between, .send 0, .handle 1 0 10 10, .send 1, .handle 1 0 10 10, .connect 0 true, .connect 1 true,
    .receive 0 (fun _ => megabyteArena) (blockStream emptyBlock),
    .receive 1 (fun _ => megabyteArena) (blockStream witnessBlock), .send 1, .handle 2 0 20 20,
    .receive 0 (fun _ => megabyteArena) (blockStream firstBlock), .send 0, .handle 3 2 30 35, .tick 100 .low]

def fetchedTwo : Download :=
  after (next .dev Sha256.sha256 100) (Download.start missingTwo 481823) fetchTwo

theorem fetchTwo_run :
    Run (Guarded (Clocked .dev) (Step .dev Sha256.sha256 100)) (Download.start missingTwo 481823) fetchTwo fetchedTwo ∧
      fetchedTwo.flushing = true ∧ fetchedTwo.master.flushed.length = 2 := by
  have possible : (runFn (guardedFn (Clocked .dev) (next .dev Sha256.sha256 100)) (Download.start missingTwo 481823)
      fetchTwo).any fun s => s.flushing = true ∧ s.master.flushed.length = 2 := by decide +kernel
  have agree : ∀ s event t, next .dev Sha256.sha256 100 s event = some t → Step .dev Sha256.sha256 100 s event t :=
    fun _ _ _ taken => taken
  obtain ⟨run, ends⟩ := Run.of_guarded_any _ agree possible
  rw [fetchedTwo]
  exact ⟨run, ends⟩

variable {p : Profile} {sha256 : Bytes → Hash} {maxWorkers : Nat} {s t : Download} {event : DownloadEvent}
  {missing : List Hash} {first : Nat}

/-- Whatever the peers send and whenever workers come and go, the blocks flushed are the missing
blocks in order, each with the header that hashes so and the transactions and witnesses that it
commits to, and every request asks for a missing block. -/
theorem flushes_missing_blocks {events : List DownloadEvent}
    (run : Run (Step p sha256 maxWorkers) (Download.start missing first) events s) :
    s.master.flushed.map Prod.snd = List.range' first s.master.flushed.length ∧
      (∀ block number, (block, number) ∈ s.master.flushed → missing[number - first]? = some block.header.hash ∧
        block.header.hash = digestTwice sha256 (hashedBytes block.header) ∧
        intoRoot sha256 (block.txs.map (·.hash)) false = (block.header.merkleRoot, false) ∧
        (segwitHeight ≤ number → verifyWitnessCommitment sha256 block = .ok ())) ∧
      ∀ request ∈ s.requests, ∃ hash ∈ missing, request = .getData [⟨.witnessBlock, hash⟩] := by
  have sound := Sound.run run
  refine ⟨sound.numbers, ?_, ?_⟩
  · intro block number member
    obtain ⟨⟨i, atI, level⟩, ⟨bytes, accepts⟩, witness⟩ := sound.blocks _ (List.mem_append_left _ member)
    dsimp only at level
    exact ⟨by rw [level, Nat.add_sub_cancel_left]; exact atI, accepts.hashed, accepts.merkle, witness⟩
  · intro request member
    obtain ⟨job, ⟨i, atI, _⟩, same⟩ := sound.requests request member
    exact ⟨job.1, List.mem_of_getElem? atI, same⟩

theorem flushes_missing_blocks_two : fetchedTwo.master.flushed.length = 2 ∧ ∀ block number,
    (block, number) ∈ fetchedTwo.master.flushed → missingTwo[number - 481823]? = some block.header.hash ∧
      (segwitHeight ≤ number → verifyWitnessCommitment Sha256.sha256 block = .ok ()) := by
  refine ⟨fetchTwo_run.2.2, fun block number member => ?_⟩
  obtain ⟨listed, _, _, witness⟩ := (flushes_missing_blocks fetchTwo_run.1.unguarded).2.1 block number member
  exact ⟨listed, witness⟩

/-- While flush takes every block, the master selects jobs as it should, and its tracker does not wait. -/
structure Selecting (p : Profile) (sha256 : Bytes → Hash) (missing : List Hash) (first : Nat) (s : Download) :
    Prop where
  sound : Sound sha256 missing first s
  selecting : s.flushing = true →
    ∃ labels, JobMaster.Selecting Block.hash p missing first labels s.master
  idle : s.flushing = true → s.tracker.lastWaitStart = 0
  waited : s.flushing = true → s.tracker.totalWaitedMicros ≤ s.micros.toNat

/-- A block that is applied is sent to flush. -/
theorem accepts_of_applies {m : JobMaster Block} {label : JobLabel Block} (sends : m.Sends label)
    (applies : m.Applies label.message) : label.accepts ≠ 0 := by
  obtain ⟨now, accepts, message⟩ := label
  cases message with
  | pullFirstJob => exact absurd applies id
  | pushResultAndGetNewJob block number =>
    have level : number = m.state.firstMissingNumber + m.state.nextToApply := applies
    have due : 0 < (m.state.pushResult block number).2.1.length := by
      rw [MasterState.pushResult, if_neg (by omega), if_neg (by omega)]
      exact Nat.succ_pos _
    exact (due.trans_le sends).ne'

theorem Selecting.step (kept : Selecting p sha256 missing first s)
    (guarded : Guarded (Clocked p) (Step p sha256 maxWorkers) s event t) : Selecting p sha256 missing first t := by
  obtain ⟨clocked, step⟩ := guarded
  have sound := kept.sound.step step
  cases moves_of_step step with
  | @handled i message queue now accepts begins ends same looping takes atQueue =>
    subst same
    obtain ⟨positive, later, started, past, order⟩ := clocked
    have answers : s.master.Answers Block.hash message := by
      cases message with
      | pullFirstJob => trivial
      | pushResultAndGetNewJob block number =>
        exact (kept.sound.queued i block number (by rw [atQueue]; exact List.mem_cons_self)).1
    have turn : (s.handle p i message queue now accepts begins ends).flushing = true →
        s.flushing = true ∧ s.master.Sends ⟨now, accepts, message⟩ :=
      fun flushing => (Bool.and_eq_true_iff.mp flushing).imp_right of_decide_eq_true
    have tracked : s.flushing = true → s.master.Sends ⟨now, accepts, message⟩ → _ := fun before sends =>
      @JobMaster.handleTracked_of_idle _ p s.master ⟨now, accepts, message⟩ _ _ _ _ (kept.idle before)
        (kept.waited before) started past order (accepts_of_applies sends)
    refine ⟨sound, fun flushing => ?_, fun flushing => ?_, fun flushing => ?_⟩
    · obtain ⟨before, sends⟩ := turn flushing
      obtain ⟨labels, selecting⟩ := kept.selecting before
      have master : (s.handle p i message queue now accepts begins ends).master =
          s.master.handle p ⟨now, accepts, message⟩ := (tracked before sends).1
      rw [master]
      exact ⟨_, selecting.step (JobMaster.guarded_step looping.1 answers positive later sends)⟩
    · obtain ⟨before, sends⟩ := turn flushing
      exact (tracked before sends).2.1
    · obtain ⟨before, sends⟩ := turn flushing
      exact (tracked before sends).2.2
  | @ticks elapsed rate u running tracker same looping adjusts resets =>
    subst same
    have level : u.flushing = s.flushing := by cases adjusts <;> rfl
    have reset : s.flushing = true → running = true ∧ tracker = .new := fun before =>
      resets (kept.idle before) clocked
    refine ⟨sound, fun flushing => ?_, fun flushing => ?_, fun flushing => ?_⟩
    · have before := level.symm.trans flushing
      obtain ⟨labels, selecting⟩ := kept.selecting before
      rw [(reset before).1, ticked_of_running (by rw [adjusts.master]; exact looping.1)]
      exact ⟨labels, adjusts.master ▸ selecting⟩
    · have fresh := (reset (level.symm.trans flushing)).2
      subst fresh
      rfl
    · have fresh := (reset (level.symm.trans flushing)).2
      subst fresh
      exact Nat.zero_le _
  | finished _ _ => exact ⟨sound, kept.selecting, kept.idle, kept.waited⟩
  | acted _ _ => exact ⟨sound, kept.selecting, kept.idle, kept.waited⟩

/-- The master does not panic while the task that takes the blocks lives and the clock goes on as it should, and each
search it has made chose a block still to apply. -/
theorem master_keeps_running {events : List DownloadEvent}
    (run : Run (Guarded (Clocked p) (Step p sha256 maxWorkers)) (Download.start missing first) events s)
    (flushing : s.flushing = true) :
    s.master.running = true ∧ ∀ call ∈ s.master.calls, call.state.Selects p call.now call.canAdvance := by
  have kept := run.invariant (P := Selecting p sha256 missing first)
    ⟨.start, fun _ => ⟨[], .start⟩, fun _ => rfl, fun _ => Nat.le_refl _⟩ fun _ _ _ => Selecting.step
  obtain ⟨labels, selecting⟩ := kept.selecting flushing
  exact ⟨selecting.running, selecting.selected⟩

theorem master_keeps_running_two : fetchedTwo.master.running = true :=
  (master_keeps_running fetchTwo_run.1 fetchTwo_run.2.1).1

end Download

end Bitlens

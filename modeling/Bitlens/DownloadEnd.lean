import Bitlens.BlockDownload

namespace Bitlens
open Lib

/-- The job whose block a worker reads from its peer. -/
def DownloadWorker.readsFor : DownloadWorker → Option (Hash × Nat)
  | .reading job => some job
  | _ => none

namespace Download

variable {p : Profile} {sha256 : Bytes → Hash} {maxWorkers : Nat} {s t : Download} {event : DownloadEvent}
  {missing : List Hash} {first : Nat}

/-! The list of workers. -/

/-- The workers that the master can abort: all that live, each once, and never none. -/
structure Listing (maxWorkers : Nat) (s : Download) : Prop where
  nodup : s.handles.Nodup
  inside : ∀ i ∈ s.handles, i < s.workers.length
  nonempty : s.handles ≠ []
  few : s.handles.length ≤ max initialWorkerCount maxWorkers
  live : ∀ i w, s.workers[i]? = some w → ¬ w.Dead → i ∈ s.handles

theorem Listing.start : Listing maxWorkers (Download.start missing first) := by
  refine ⟨List.nodup_range, ?_, (fun absent => by cases absent), ?_, ?_⟩
  · intro i member
    exact List.mem_range.mp member
  · exact Nat.le_max_left _ _
  · intro i w atI _
    refine List.mem_range.mpr ?_
    simpa [Download.start] using (List.getElem?_eq_some_iff.mp atI).1

/-- Changing a worker that is listed keeps the list. -/
theorem Listing.set (listing : Listing maxWorkers s) {i : Nat} {w v : DownloadWorker} (atI : s.workers[i]? = some w)
    (dies : w.Dead → v.Dead) {sent : List (DownloadWorkerMessage Block)} {asked : List PayloadToSend} :
    Listing maxWorkers (s.act i v sent asked) := by
  refine ⟨listing.nodup, ?_, listing.nonempty, listing.few, ?_⟩
  · intro j member
    exact (listing.inside j member).trans_eq List.length_set.symm
  · intro j u atJ lives
    change (s.workers.set i v)[j]? = some u at atJ
    by_cases same : i = j
    · subst same
      refine listing.live i w atI fun dead => lives ?_
      rw [List.getElem?_set_self (List.getElem?_eq_some_iff.mp atI).1] at atJ
      cases atJ
      exact dies dead
    · rw [List.getElem?_set_ne same] at atJ
      exact listing.live j u atJ lives

theorem dead_of_acts {looping : Prop} {i : Nat} {w v : DownloadWorker} {sent : List (DownloadWorkerMessage Block)}
    {asked : List PayloadToSend} (acts : Acts sha256 looping event i w v sent asked) (dead : w.Dead) : v.Dead := by
  cases acts with
  | ends _ => trivial
  | asks works | works works _ =>
    cases w with
    | connecting _ | writing _ | reading _ => exact absurd dead id
    | _ => cases works
  | _ => exact absurd dead id

theorem Listing.adjust (listing : Listing maxWorkers s) (adjusts : Adjusts maxWorkers s t) : Listing maxWorkers t := by
  cases adjusts with
  | keeps => exact listing
  | spawns room =>
    refine ⟨?_, ?_, by simp, ?_, ?_⟩
    · refine List.nodup_append.mpr ⟨listing.nodup, by simp, ?_⟩
      rintro i member _ fresh rfl
      exact absurd (listing.inside i member) (by simp [List.mem_singleton.mp fresh])
    · intro i member
      rw [List.length_append, List.length_singleton]
      rcases List.mem_append.mp member with old | fresh
      · exact Nat.lt_succ_of_lt (listing.inside i old)
      · rw [List.mem_singleton.mp fresh]
        exact Nat.lt_succ_self _
    · rw [List.length_append, List.length_singleton]
      exact (Nat.succ_le_of_lt room).trans (Nat.le_max_right _ _)
    · intro i w atI lives
      by_cases old : i < s.workers.length
      · rw [List.getElem?_append_left old] at atI
        exact List.mem_append_left _ (listing.live i w atI lives)
      · have inside := (List.getElem?_eq_some_iff.mp atI).1
        rw [List.length_append, List.length_singleton] at inside
        refine List.mem_append_right _ (List.mem_singleton.mpr ?_)
        omega
  | @aborts front i split several =>
    have nodup := listing.nodup
    rw [split, List.nodup_append] at nodup
    refine ⟨nodup.1, ?_, several, ?_, ?_⟩
    · intro j member
      refine (listing.inside j ?_).trans_eq List.length_set.symm
      rw [split]
      exact List.mem_append_left _ member
    · have few := listing.few
      rw [split, List.length_append] at few
      exact (Nat.le_add_right _ _).trans few
    · intro j w atJ lives
      change (s.workers.set i .ended)[j]? = some w at atJ
      by_cases same : i = j
      · subst same
        rw [List.getElem?_set_self (listing.inside i (by rw [split]; simp))] at atJ
        cases atJ
        exact absurd trivial lives
      · rw [List.getElem?_set_ne same] at atJ
        have member := listing.live j w atJ lives
        rw [split] at member
        rcases List.mem_append.mp member with inFront | last
        · exact inFront
        · exact absurd (List.mem_singleton.mp last).symm same

theorem Listing.step (listing : Listing maxWorkers s) (step : s.Step p sha256 maxWorkers event t) :
    Listing maxWorkers t := by
  cases moves_of_step step with
  | ticks _ _ adjusts _ =>
    have adjusted := listing.adjust adjusts
    exact ⟨adjusted.nodup, adjusted.inside, adjusted.nonempty, adjusted.few, adjusted.live⟩
  | finished _ _ => exact ⟨listing.nodup, listing.inside, listing.nonempty, listing.few, listing.live⟩
  | handled _ _ _ _ =>
    refine ⟨listing.nodup, ?_, listing.nonempty, listing.few, ?_⟩
    · intro j member
      exact (listing.inside j member).trans_eq (List.length_modify _ _ _).symm
    · intro j w atJ lives
      obtain ⟨u, before, rfl | rfl⟩ := getElem?_workers_of_handle atJ
      · exact listing.live j w before lives
      · refine listing.live j u before fun dead => lives ?_
        cases u with
        | ended | panicked => trivial
        | _ => exact absurd dead id
  | acted atI acts => exact listing.set atI (dead_of_acts acts)

/-! How a download ends. -/

/-- No worker reads a block without transactions for a job whose witness commitment it checks. -/
def Spared (sha256 : Bytes → Hash) (s : Download) : DownloadEvent → Prop
  | .receive i getArena stream => SendsEmptyBlock sha256 getArena stream →
    ∀ job ∈ (s.workers[i]?).bind DownloadWorker.readsFor, job.2 < segwitHeight
  | _ => True

instance (sha256 : Bytes → Hash) (s : Download) : DecidablePred (Spared sha256 s) := fun event =>
  match event with
  | .receive i getArena stream => inferInstanceAs (Decidable (SendsEmptyBlock sha256 getArena stream →
      ∀ job ∈ (s.workers[i]?).bind DownloadWorker.readsFor, job.2 < segwitHeight))
  | .tick _ _ | .finish | .handle _ _ _ _ | .send _ | .orphan _ | .connect _ _ | .write _ _ | .timeout _ => isTrue trivial

/-- No worker has panicked, and a listed one ends only when every block was flushed. -/
structure Ending (missing : List Hash) (s : Download) : Prop where
  unharmed : .panicked ∉ s.workers
  ended : s.flushing = true → s.Looping → ∀ i ∈ s.handles, s.workers[i]? = some .ended →
    s.master.flushed.length = missing.length
  finished : s.flushing = true → s.finished = true → s.master.flushed.length = missing.length

theorem Ending.start : Ending missing (Download.start missing first) := by
  refine ⟨?_, ?_, fun _ absent => by cases absent⟩
  · intro member
    cases List.eq_of_mem_replicate member
  · intro _ _ i _ atI
    cases List.eq_of_mem_replicate (List.mem_of_getElem? atI)

/-- Never more blocks are flushed than are missing. -/
theorem Sound.flushed_le (sound : Sound sha256 missing first s) (flushing : s.flushing = true) :
    s.master.flushed.length = s.master.state.nextToApply ∧ s.master.flushed.length ≤ missing.length := by
  obtain ⟨labels, kept⟩ := sound.delivering flushing
  have count : s.master.flushed.length = s.master.state.nextToApply := by
    rw [← List.length_map Prod.snd, kept.numbers, List.length_range']
  have asked := kept.tracking.asked
  rw [kept.list] at asked
  exact ⟨count, count.trans_le (kept.tracking.applied.trans asked)⟩

theorem Ending.handle (sound : Sound sha256 missing first s) (ending : Ending missing s) {i now accepts : Nat}
    {begins ends : UInt64} {message : DownloadWorkerMessage Block} {queue : List (Nat × DownloadWorkerMessage Block)}
    (looping : s.Looping) (takes : s.flushing = true ∨ accepts = 0) (atQueue : s.queue = (i, message) :: queue) :
    Ending missing (s.handle p i message queue now accepts begins ends) := by
  have after : Sound sha256 missing first (s.handle p i message queue now accepts begins ends) :=
    sound.handle looping takes atQueue
  refine ⟨?_, ?_, ?_⟩
  · intro member
    obtain ⟨u, old, same | same⟩ := mem_workers_of_handle member
    · exact ending.unharmed (same ▸ old)
    · exact ending.unharmed (DownloadWorker.reply_panicked same.symm ▸ old)
  · intro flushing running j listed atJ
    obtain ⟨sent, job, turns, _, _, applied⟩ :=
      @JobMaster.turns_of_handleTracked _ p s.master ⟨now, accepts, message⟩ begins ends s.tracker
    have turned : s.master.Turns message sent job (s.handle p i message queue now accepts begins ends).master := turns
    obtain ⟨before, sends⟩ := Bool.and_eq_true_iff.mp flushing
    obtain ⟨count, most⟩ := after.flushed_le flushing
    obtain ⟨u, atU, same⟩ := getElem?_workers_of_handle atJ
    by_cases dead : u = .ended
    · have all := ending.ended before looping j listed (by rw [atU, dead])
      have longer : s.master.flushed.length ≤
          (s.handle p i message queue now accepts begins ends).master.flushed.length := by
        rw [turned.flushed, List.length_append]
        exact Nat.le_add_right _ _
      omega
    · have unanswered : job = none := by
        have handed := turned.handedOut
        cases job with
        | none => rfl
        | some k =>
          have found :
              (s.handle p i message queue now accepts begins ends).master.handedOut[s.master.handedOut.length]? =
                some k := by
            rw [handed, List.getElem?_append_right (Nat.le_refl _), Nat.sub_self]
            rfl
          rw [found] at same
          rcases same with same | same
          · exact absurd same.symm dead
          · exact absurd ((DownloadWorker.reply_ended same.symm).resolve_right (Option.some_ne_none k)) dead
      have all : s.master.state.missingBlocks.length ≤
          (s.handle p i message queue now accepts begins ends).master.state.nextToApply :=
        applied (of_decide_eq_true sends) running.1 unanswered
      rw [sound.list] at all
      omega
  · intro _ finished
    exact absurd finished (by rw [Bool.not_eq_true]; exact looping.2)

theorem Ending.adjust (listing : Listing maxWorkers s) (ending : Ending missing s) (looping : s.Looping)
    (adjusts : Adjusts maxWorkers s t) : Ending missing t := by
  cases adjusts with
  | keeps => exact ending
  | spawns _ =>
    refine ⟨?_, ?_, ending.finished⟩
    · intro member
      rcases List.mem_append.mp member with old | fresh
      · exact ending.unharmed old
      · cases List.mem_singleton.mp fresh
    · intro flushing _ i member atI
      rcases List.mem_append.mp member with old | fresh
      · rw [List.getElem?_append_left (listing.inside i old)] at atI
        exact ending.ended flushing looping i old atI
      · rw [List.mem_singleton.mp fresh, List.getElem?_append_right (Nat.le_refl _), Nat.sub_self] at atI
        cases atI
  | @aborts front i split _ =>
    have nodup := listing.nodup
    rw [split, List.nodup_append] at nodup
    refine ⟨?_, ?_, ending.finished⟩
    · intro member
      rcases List.mem_or_eq_of_mem_set member with old | fresh
      · exact ending.unharmed old
      · cases fresh
    · intro flushing _ j member atJ
      have apart : i ≠ j := fun same => nodup.2.2 j member i (by simp) same.symm
      change (s.workers.set i .ended)[j]? = some .ended at atJ
      rw [List.getElem?_set_ne apart] at atJ
      refine ending.ended flushing looping j ?_ atJ
      rw [split]
      exact List.mem_append_left _ member

/-- The step lemma of the end of a download. -/
theorem Ending.step (sound : Sound sha256 missing first s) (listing : Listing maxWorkers s) (ending : Ending missing s)
    (guarded : Guarded (Spared sha256) (Step p sha256 maxWorkers) s event t) : Ending missing t := by
  obtain ⟨spared, step⟩ := guarded
  cases moves_of_step step with
  | ticks _ looping adjusts _ =>
    have adjusted := ending.adjust listing looping adjusts
    have still := looping
    rw [Looping, ← adjusts.master] at still
    refine ⟨adjusted.unharmed, fun flushing running => adjusted.ended flushing ⟨still.1, running.2⟩, adjusted.finished⟩
  | finished looping dead =>
    refine ⟨ending.unharmed, ?_, ?_⟩
    · intro _ running
      cases running.2
    · intro flushing _
      -- the list holds a worker, and that one is dead
      obtain ⟨i, member⟩ := List.exists_mem_of_ne_nil _ listing.nonempty
      obtain ⟨w, atI⟩ : ∃ w, s.workers[i]? = some w := ⟨_, List.getElem?_eq_getElem (listing.inside i member)⟩
      have gone := dead w (List.mem_of_getElem? atI)
      cases w with
      | ended => exact ending.ended flushing looping i member atI
      | panicked => exact absurd (List.mem_of_getElem? atI) ending.unharmed
      | _ => exact absurd gone id
  | handled _ looping takes atQueue => exact ending.handle sound looping takes atQueue
  | @acted i w v sent asked atI acts =>
    have inside := (List.getElem?_eq_some_iff.mp atI).1
    refine ⟨?_, ?_, ending.finished⟩
    · intro member
      rcases List.mem_or_eq_of_mem_set member with old | rfl
      · exact ending.unharmed old
      · cases acts with
        | works _ same => cases same
        | panics same level empty =>
          subst same
          exact absurd (spared empty _ (by rw [atI]; rfl)) (Nat.not_lt.mpr level)
    · intro flushing looping j member atJ
      change (s.workers.set i v)[j]? = some .ended at atJ
      by_cases same : i = j
      · subst same
        rw [List.getElem?_set_self inside] at atJ
        cases atJ
        cases acts with
        | ends gone => exact absurd looping gone
        | works _ same => cases same
      · rw [List.getElem?_set_ne same] at atJ
        exact ending.ended flushing looping j member atJ

/-- While no worker reads a block without transactions for a job from the height of segwit on, no worker panics, and
the download finishes only when every missing block was flushed, unless the task that takes the blocks has ended. -/
theorem finishes_complete {events : List DownloadEvent}
    (run : Run (Guarded (Spared sha256) (Step p sha256 maxWorkers)) (Download.start missing first) events s) :
    .panicked ∉ s.workers ∧
      (s.finished = true → s.flushing = true → s.master.flushed.length = missing.length) := by
  obtain ⟨_, _, ending⟩ := run.invariant (P := fun s => Sound sha256 missing first s ∧ Listing maxWorkers s ∧
      Ending missing s) ⟨.start, .start, .start⟩ fun s event t kept guarded =>
        ⟨kept.1.step guarded.2, kept.2.1.step guarded.2, kept.2.2.step kept.1 kept.2.1 guarded⟩
  exact ⟨ending.unharmed, fun finished flushing => ending.finished flushing finished⟩

/-- The faster peer is asked for the first block too, which comes too late. The workers are told that there is no job,
and the download finishes. -/
def closeTwo : List DownloadEvent :=
  [.write 1 true, .receive 1 (fun _ => megabyteArena) (blockStream firstBlock)] ++
    (List.range' 1 8).flatMap (fun i => [.send i, .handle 4 0 40 40]) ++ [.finish]

def closedTwo : Download :=
  after (next .dev Sha256.sha256 100) (Download.start missingTwo 481823) (fetchTwo ++ closeTwo)

theorem finishes_complete_two : closedTwo.finished = true ∧ closedTwo.master.flushed.length = missingTwo.length := by
  have possible : (runFn (guardedFn (Spared Sha256.sha256) (next .dev Sha256.sha256 100))
      (Download.start missingTwo 481823) (fetchTwo ++ closeTwo)).any fun s => s.finished = true ∧ s.flushing = true := by
    decide +kernel
  have agree : ∀ s event t, next .dev Sha256.sha256 100 s event = some t → Step .dev Sha256.sha256 100 s event t :=
    fun _ _ _ taken => taken
  obtain ⟨run, finished, flushing⟩ := Run.of_guarded_any _ agree possible
  rw [closedTwo]
  exact ⟨finished, (finishes_complete run).2 finished flushing⟩

/-! Every worker reads a block without transactions. -/

/-- What a tick measures. -/
def measured : DownloadEvent → Option (UInt64 × DownloadRate)
  | .tick elapsed rate => some (elapsed, rate)
  | _ => none

/-- Every worker has gone or has not begun, and nothing was flushed. -/
structure Besieged (missing : List Hash) (first : Nat) (s : Download) : Prop where
  workers : ∀ w ∈ s.workers, w.Dead ∨ w = .fetching
  queue : s.queue = []
  looping : s.Looping
  flushing : s.flushing = true
  tracker : s.tracker = .new
  waiting : s.master.state.Waiting 1
  list : s.master.state.missingBlocks = missing
  base : s.master.state.firstMissingNumber = first
  next : s.master.state.nextToApply = 0
  flushed : s.master.flushed = []

theorem Besieged.start : Besieged missing first (Download.start missing first) := by
  have selecting : JobMaster.Selecting Block.hash .dev missing first [] (Download.start missing first).master :=
    .start
  exact ⟨fun w member => Or.inr (List.eq_of_mem_replicate member), rfl, ⟨rfl, rfl⟩, rfl, rfl,
    selecting.waiting.mono (Nat.zero_le 1), rfl, rfl, rfl, rfl⟩

/-- A block without transactions makes the worker panic, whichever block it was asked for. -/
theorem receive_empty {job : Hash × Nat} {getArena : Nat → Arena} {stream : Bytes} (after : segwitHeight ≤ job.2)
    (empty : SendsEmptyBlock sha256 getArena stream) :
    DownloadWorker.receive sha256 job (readPacket sha256 getArena stream) = .panicked := by
  obtain ⟨packet, rest, block, read, sent, none_⟩ := sendsEmptyBlock_iff.mp empty
  have panics : verifyWitnessCommitment sha256 block = .fault := by
    rw [verifyWitnessCommitment, none_]
    rfl
  simp only [read, DownloadWorker.receive, sent, DownloadWorker.shouldSend, if_pos after, panics]

/-- The master hands the next worker a job. -/
theorem Besieged.reply (besieged : Besieged missing first s) (some_ : missing ≠ []) :
    ∃ j, (s.master.handle p ⟨1, 0, .pullFirstJob⟩).handedOut[s.master.handedOut.length]? = some j ∧ first ≤ j.2 ∧
      (s.master.handle p ⟨1, 0, .pullFirstJob⟩).running = true ∧
      (s.master.handle p ⟨1, 0, .pullFirstJob⟩).flushed = [] ∧
      (s.master.handle p ⟨1, 0, .pullFirstJob⟩).state.Waiting 1 ∧
      (s.master.handle p ⟨1, 0, .pullFirstJob⟩).state.missingBlocks = missing ∧
      (s.master.handle p ⟨1, 0, .pullFirstJob⟩).state.firstMissingNumber = first ∧
      (s.master.handle p ⟨1, 0, .pullFirstJob⟩).state.nextToApply = 0 := by
  obtain ⟨t, job, found, waiting, chosen⟩ := besieged.waiting.findNextBestJob (p := p) Nat.one_pos true (by simp)
  have kept := MasterState.searches_of_findNextBestJob found
  cases job with
  | none =>
    have all := chosen.finished.mp rfl
    rw [besieged.next, besieged.list] at all
    exact absurd (List.length_eq_zero_iff.mp all.symm) some_
  | some j =>
    obtain ⟨i, _, level⟩ := kept.listed j rfl
    rw [besieged.base] at level
    refine ⟨j, ?_⟩
    simp only [JobMaster.handle, JobMaster.reply, found]
    refine ⟨?_, by omega, trivial, besieged.flushed, waiting, kept.missing.trans besieged.list,
      kept.first.trans besieged.base, kept.next.trans besieged.next⟩
    rw [List.getElem?_append_right (Nat.le_refl _), Nat.sub_self]
    rfl

theorem modify_set {α : Type} {xs : List α} {i : Nat} {a : α} {f : α → α} :
    (xs.set i a).modify i f = xs.set i (f a) := by
  refine List.ext_getElem? fun j => ?_
  by_cases same : i = j
  · subst same
    rw [List.getElem?_modify_eq, List.getElem?_set_self', List.getElem?_set_self']
    cases xs[i]? <;> rfl
  · rw [List.getElem?_modify_ne _ _ same, List.getElem?_set_ne same, List.getElem?_set_ne same]

/-- A worker asks the master for a job and a peer for its block, and reads what the peer sends. -/
def besiege (getArena : Nat → Arena) (stream : Bytes) (k : Nat) : List DownloadEvent :=
  [.send k, .handle 1 0 1 1, .connect k true, .receive k getArena stream]

variable (p maxWorkers) in
theorem Besieged.advance {k : Nat} {getArena : Nat → Arena} {stream : Bytes} (besieged : Besieged missing first s)
    (atK : s.workers[k]? = some .fetching) (some_ : missing ≠ []) (after : segwitHeight ≤ first)
    (empty : SendsEmptyBlock sha256 getArena stream) :
    ∃ t, Run (Step p sha256 maxWorkers) s (besiege getArena stream k) t ∧ Besieged missing first t ∧
      t.workers = s.workers.set k .panicked ∧ t.handles = s.handles := by
  obtain ⟨job, handed, level, running, flushed, waiting, list, base, next⟩ := besieged.reply (p := p) some_
  have inside := (List.getElem?_eq_some_iff.mp atK).1
  have looping := besieged.looping
  have room : s.queue.length < masterCapacity := by
    rw [besieged.queue]
    exact Nat.one_pos
  -- the worker pulls its first job
  have sends : s.Step p sha256 maxWorkers (.send k) (s.enqueue k .pullFirstJob .pulling) := by
    simp only [Step, Download.next, if_pos (And.intro looping room), atK]
  let pulled := s.enqueue k .pullFirstJob .pulling
  have handles : pulled.Step p sha256 maxWorkers (.handle 1 0 1 1) (pulled.handle p k .pullFirstJob [] 1 0 1 1) := by
    have queued : pulled.queue = [(k, .pullFirstJob)] := by
      simp only [pulled, enqueue, besieged.queue, List.nil_append]
    simp only [Step, Download.next, queued, or_true, and_true, if_pos (show pulled.Looping from looping)]
  let answered := pulled.handle p k .pullFirstJob [] 1 0 1 1
  have reached : answered.workers = s.workers.set k (.connecting job) := by
    simp only [answered, Download.handle, JobMaster.handleTracked, JobMaster.Applies, if_false, pulled, enqueue,
      setWorker, modify_set, handed]
    rfl
  -- it asks a peer for the block and reads one without transactions
  have connects : answered.Step p sha256 maxWorkers (.connect k true) (answered.writeJob k job true) := by
    simp only [Step, Download.next, reached, List.getElem?_set_self inside]
  let asked := answered.writeJob k job true
  have asking : asked.workers = s.workers.set k (.reading job) := by
    simp only [asked, writeJob, if_true, setWorker, reached, List.set_set]
  have receives : asked.Step p sha256 maxWorkers (.receive k getArena stream) (asked.setWorker k .panicked) := by
    simp only [Step, Download.next, asking, List.getElem?_set_self inside, receive_empty (after.trans level) empty]
  have gone : (asked.setWorker k .panicked).workers = s.workers.set k .panicked := by
    simp only [setWorker, asking, List.set_set]
  refine ⟨_, .cons sends (.cons handles (.cons connects (.single receives))), ?_, gone, rfl⟩
  refine ⟨?_, rfl, ⟨running, looping.2⟩, ?_, besieged.tracker, waiting, list, base, next, flushed⟩
  · intro w member
    rw [gone] at member
    rcases List.mem_or_eq_of_mem_set member with old | rfl
    · exact besieged.workers w old
    · exact Or.inl trivial
  · exact Bool.and_eq_true_iff.mpr ⟨besieged.flushing, decide_eq_true trivial⟩

variable (p maxWorkers) in
/-- The workers that have not begun read their block one after another. -/
theorem Besieged.clear {getArena : Nat → Arena} {stream : Bytes} (besieged : Besieged missing first s)
    (some_ : missing ≠ []) (after : segwitHeight ≤ first) (empty : SendsEmptyBlock sha256 getArena stream) :
    ∃ (ks : List Nat) (t : Download), Run (Step p sha256 maxWorkers) s (ks.flatMap (besiege getArena stream)) t ∧
      Besieged missing first t ∧ t.handles = s.handles ∧ ∀ w ∈ t.workers, w.Dead := by
  have each : ∀ n ≤ s.workers.length, ∃ (ks : List Nat) (t : Download),
      Run (Step p sha256 maxWorkers) s (ks.flatMap (besiege getArena stream)) t ∧ Besieged missing first t ∧
        t.handles = s.handles ∧ t.workers.length = s.workers.length ∧
        ∀ i w, i < n → t.workers[i]? = some w → w.Dead := by
    intro n
    induction n with
    | zero => exact fun _ => ⟨[], s, .nil, besieged, rfl, rfl, fun i w below => absurd below (Nat.not_lt_zero i)⟩
    | succ n ih =>
      intro inside
      obtain ⟨ks, t, run, reached, handles, count, gone⟩ := ih (Nat.le_of_succ_le inside)
      obtain ⟨w, atN⟩ : ∃ w, t.workers[n]? = some w := ⟨_, List.getElem?_eq_getElem (count ▸ inside)⟩
      rcases reached.workers _ (List.mem_of_getElem? atN) with dead | fresh
      · refine ⟨ks, t, run, reached, handles, count, fun i v below atI => ?_⟩
        rcases Nat.lt_succ_iff_lt_or_eq.mp below with before | rfl
        · exact gone i v before atI
        · cases atN.symm.trans atI
          exact dead
      · subst fresh
        obtain ⟨u, more, further, killed, same⟩ := reached.advance p maxWorkers atN some_ after empty
        refine ⟨ks ++ [n], u, ?_, further, same.trans handles, ?_, fun i w below atI => ?_⟩
        · rw [List.flatMap_append, List.flatMap_singleton]
          exact run.append more
        · rw [killed, List.length_set, count]
        · rw [killed] at atI
          by_cases last : n = i
          · subst last
            rw [List.getElem?_set_self (by omega)] at atI
            cases atI
            trivial
          · rw [List.getElem?_set_ne last] at atI
            exact gone i w (by omega) atI
  obtain ⟨ks, t, run, reached, handles, count, gone⟩ := each s.workers.length (Nat.le_refl _)
  refine ⟨ks, t, run, reached, handles, fun w member => ?_⟩
  obtain ⟨i, atI⟩ := List.mem_iff_getElem?.mp member
  exact gone i w (count ▸ (List.getElem?_eq_some_iff.mp atI).1) atI

/-- A tick spawns one worker more, or it leaves no worker alive that was not. -/
theorem Besieged.adjust (besieged : Besieged missing first s) (adjusts : Adjusts maxWorkers s t) :
    Besieged missing first t ∧
      (s.handles.length < maxWorkers ∧ t.handles.length = s.handles.length + 1 ∨
        s.handles.length ≤ t.handles.length + 1 ∧ ((∀ w ∈ s.workers, w.Dead) → ∀ w ∈ t.workers, w.Dead)) := by
  cases adjusts with
  | keeps => exact ⟨besieged, Or.inr ⟨Nat.le_succ _, id⟩⟩
  | spawns room =>
    refine ⟨{ besieged with workers := fun w member => ?_ }, Or.inl ⟨room, List.length_append⟩⟩
    rcases List.mem_append.mp member with old | fresh
    · exact besieged.workers w old
    · exact Or.inr (List.mem_singleton.mp fresh)
  | aborts split _ =>
    refine ⟨{ besieged with workers := fun w member => ?_ }, Or.inr ⟨?_, fun dead w member => ?_⟩⟩
    · rcases List.mem_or_eq_of_mem_set member with old | rfl
      · exact besieged.workers w old
      · exact Or.inl trivial
    · rw [split, List.length_append]
      rfl
    · rcases List.mem_or_eq_of_mem_set member with old | rfl
      · exact dead w old
      · trivial

theorem Besieged.tick (besieged : Besieged missing first s) (elapsed : UInt64) (rate : DownloadRate) :
    s.Step p sha256 maxWorkers (.tick elapsed rate) { s.adjust maxWorkers rate with tracker := .new } := by
  have waited : p.sub 64 elapsed.toNat TimeTracker.new.totalWaitedMicros = .ok elapsed.toNat :=
    Profile.sub_of_le (Nat.zero_le _)
  have ticks : s.tick p maxWorkers elapsed rate = { s.adjust maxWorkers rate with tracker := .new } := by
    simp only [Download.tick, besieged.tracker, waited]
    rfl
  simp only [Step, Download.next, if_pos besieged.looping, ticks]

theorem measured_besiege {getArena : Nat → Arena} {stream : Bytes} {ks : List Nat} :
    (ks.flatMap (besiege getArena stream)).filterMap measured = [] := by
  refine List.filterMap_eq_nil_iff.mpr fun event member => ?_
  obtain ⟨k, _, inBlock⟩ := List.mem_flatMap.mp member
  fin_cases inBlock <;> rfl

/-- With every worker dead the download ends at the first tick that spawns none. -/
theorem Besieged.outlast {getArena : Nat → Arena} {stream : Bytes} (besieged : Besieged missing first s)
    (some_ : missing ≠ []) (after : segwitHeight ≤ first) (empty : SendsEmptyBlock sha256 getArena stream)
    (dead : ∀ w ∈ s.workers, w.Dead) {ticks : List (UInt64 × DownloadRate)}
    (long : maxWorkers - s.handles.length < ticks.length) :
    ∃ events elapsed rate t,
      Run (Step p sha256 maxWorkers) s (events ++ [.tick elapsed rate, .finish]) t ∧
        (events ++ [.tick elapsed rate]).filterMap measured <+: ticks ∧ t.finished = true ∧ t.flushing = true ∧
        t.master.flushed = [] := by
  induction ticks generalizing s with
  | nil => exact absurd long (Nat.not_lt_zero _)
  | cons measurement ticks ih =>
    obtain ⟨elapsed, rate⟩ := measurement
    have here : measured (.tick elapsed rate) = some (elapsed, rate) := rfl
    have step : s.Step p sha256 maxWorkers (.tick elapsed rate) _ := besieged.tick elapsed rate
    have adjusts : Adjusts maxWorkers s (s.adjust maxWorkers rate) := adjusts_adjust
    obtain ⟨adjusted, ⟨room, spawned⟩ | ⟨_, still⟩⟩ := besieged.adjust adjusts
    · have ticked : Besieged missing first { s.adjust maxWorkers rate with tracker := .new } :=
        { adjusted with tracker := rfl }
      obtain ⟨ks, u, more, cleared, handles, gone⟩ := ticked.clear p maxWorkers some_ after empty
      have fewer : maxWorkers - u.handles.length < ticks.length := by
        rw [handles]
        dsimp only
        rw [List.length_cons] at long
        omega
      obtain ⟨events, e, r, t, run, front, ended⟩ := ih cleared gone fewer
      refine ⟨.tick elapsed rate :: (ks.flatMap (besiege getArena stream) ++ events), e, r, t, ?_, ?_, ended⟩
      · rw [List.cons_append, List.append_assoc]
        exact .cons step (more.append run)
      · rw [List.cons_append, List.append_assoc, List.filterMap_cons_some here, List.filterMap_append, measured_besiege]
        exact (List.prefix_cons_inj _).mpr front
    · let ticked : Download := { s.adjust maxWorkers rate with tracker := .new }
      have looping : ticked.Looping := adjusted.looping
      have left : ∀ w ∈ ticked.workers, w.Dead := still dead
      have finishes : ticked.Step p sha256 maxWorkers .finish { ticked with finished := true } := by
        simp only [Step, Download.next, if_pos (And.intro looping left)]
      exact ⟨[], elapsed, rate, _, .cons step (.single finishes), List.prefix_append [_] _, rfl, adjusted.flushing,
        adjusted.flushed⟩

/-- Where every worker that asks reads a block without transactions, a download from the height of segwit on can end
with nothing flushed, whatever the ticks measure: behind at most `maxWorkers + 2` of them. -/
theorem finishes_early {getArena : Nat → Arena} {stream : Bytes} (some_ : missing ≠ []) (after : segwitHeight ≤ first)
    (empty : SendsEmptyBlock sha256 getArena stream) {ticks : List (UInt64 × DownloadRate)}
    (long : maxWorkers + 1 < ticks.length) :
    ∃ events elapsed rate s,
      Run (Step p sha256 maxWorkers) (Download.start missing first) (events ++ [.tick elapsed rate, .finish]) s ∧
        (events ++ [.tick elapsed rate]).filterMap measured <+: ticks ∧ s.finished = true ∧ s.flushing = true ∧
        s.master.flushed = [] := by
  obtain ⟨⟨elapsed, rate⟩, ticks, rfl⟩ := List.exists_cons_of_length_pos (Nat.zero_lt_of_lt long)
  have here : measured (.tick elapsed rate) = some (elapsed, rate) := rfl
  have started : Besieged missing first (Download.start missing first) := .start
  have step : (Download.start missing first).Step p sha256 maxWorkers (.tick elapsed rate) _ :=
    started.tick elapsed rate
  have adjusts : Adjusts maxWorkers (Download.start missing first) ((Download.start missing first).adjust maxWorkers rate) :=
    adjusts_adjust
  -- the first tick is due at once
  obtain ⟨adjusted, change⟩ := started.adjust adjusts
  have ticked : Besieged missing first { (Download.start missing first).adjust maxWorkers rate with tracker := .new } :=
    { adjusted with tracker := rfl }
  obtain ⟨ks, t, more, cleared, handles, gone⟩ := ticked.clear p maxWorkers some_ after empty
  have fewer : maxWorkers - t.handles.length < ticks.length := by
    rw [List.length_cons] at long
    omega
  obtain ⟨events, e, r, s, run, front, ended⟩ := cleared.outlast some_ after empty gone fewer
  refine ⟨.tick elapsed rate :: (ks.flatMap (besiege getArena stream) ++ events), e, r, s, ?_, ?_, ended⟩
  · rw [List.cons_append, List.append_assoc]
    exact .cons step (more.append run)
  · rw [List.cons_append, List.append_assoc, List.filterMap_cons_some here, List.filterMap_append, measured_besiege]
    exact (List.prefix_cons_inj _).mpr front

theorem finishes_early_hundred : ∃ events elapsed rate s,
    Run (Step .dev Sha256.sha256 100) (Download.start [witnessBlock.header.hash] segwitHeight)
        (events ++ [.tick elapsed rate, .finish]) s ∧
      (events ++ [.tick elapsed rate]).filterMap measured <+: List.replicate 102 (10000000, .high) ∧
      s.finished = true ∧ s.flushing = true ∧ s.master.flushed = [] :=
  @finishes_early _ _ _ _ _ (fun _ => megabyteArena) (blockStream emptyBlock) (List.cons_ne_nil _ _) (Nat.le_refl _)
    (by decide +kernel) _ (by decide)

end Download

end Bitlens

import Mathlib.Data.List.Induction
import Bitlens.BlockSync

namespace Bitlens
open Lib

namespace MasterState

variable {P : Type} {s t : MasterState P} {p : Profile} {now : Nat}

/-- The backlog is strictly descending and holds numbers between the block waited
for and the first block never asked for. -/
structure Tracking (s : MasterState P) : Prop where
  times : s.lastRequestTimes.length = s.missingBlocks.length
  applied : s.nextToApply ≤ s.nextNeverAskedFor
  asked : s.nextNeverAskedFor ≤ s.missingBlocks.length
  descending : s.backlog.Pairwise fun a b => b.2 < a.2
  ahead : ∀ entry ∈ s.backlog, s.firstMissingNumber + s.nextToApply < entry.2 ∧
    entry.2 < s.firstMissingNumber + s.nextNeverAskedFor

/-- A job for a block that has been asked for. -/
def Job (s : MasterState P) (job : Hash × Nat) : Prop :=
  ∃ i, i < s.nextNeverAskedFor ∧ job.2 = s.firstMissingNumber + i ∧ s.missingBlocks[i]? = some job.1

theorem Job.mono {job : Hash × Nat} (known : s.Job job)
    (missing : t.missingBlocks = s.missingBlocks) (first : t.firstMissingNumber = s.firstMissingNumber)
    (grows : s.nextNeverAskedFor ≤ t.nextNeverAskedFor) : t.Job job := by
  obtain ⟨i, asked, level, atI⟩ := known
  exact ⟨i, by omega, by rw [level, first], by rw [missing, atI]⟩

theorem setAt_eq_ok {times result : List Nat} {i value : Nat} (run : setAt times i value = .ok result) :
    result.length = times.length := by
  unfold setAt at run
  split at run
  · cases run
    exact List.length_set
  · cases run

/-- The loop of `find_next_best_job` returns indices it was given. -/
theorem findWaiting_mem {times : List Nat} {indices : List Nat} {oldest : Option (Nat × Nat)}
    {result : Nat ⊕ Option Nat} (on : Nat → Prop) (run : findWaiting p now times indices oldest = .ok result)
    (inside : ∀ i ∈ indices, on i) (before : ∀ j e, oldest = some (j, e) → on j) :
    (∀ i, result = .inl i → on i) ∧ ∀ i, result = .inr (some i) → on i := by
  induction indices generalizing oldest with
  | nil =>
    cases run
    refine ⟨fun _ found => (nomatch found), fun i found => ?_⟩
    obtain ⟨entry, atOldest, same⟩ := Option.map_eq_some_iff.mp (Sum.inr.inj found)
    rw [← same]
    exact before entry.1 entry.2 atOldest
  | cons i rest ih =>
    have tail : ∀ j ∈ rest, on j := fun j member => inside j (List.mem_cons_of_mem _ member)
    rw [findWaiting] at run
    obtain ⟨requestedAt, _, run⟩ := Outcome.bind_eq_ok.mp run
    split at run
    · exact ih run tail before
    · obtain ⟨elapsed, _, run⟩ := Outcome.bind_eq_ok.mp run
      split at run
      · cases run
        refine ⟨fun j found => ?_, fun _ found => (nomatch found)⟩
        cases found
        exact inside _ (by simp)
      · refine ih run tail ?_
        intro j e atOldest
        cases oldest with
        | none =>
          cases atOldest
          exact inside _ (by simp)
        | some previous =>
          dsimp only at atOldest
          split at atOldest
          · cases atOldest
            exact inside _ (by simp)
          · exact before j e atOldest

/-- What `find_next_best_job` may change: the request times and the count of
blocks asked for, which covers the job it returns. -/
structure Asks (s t : MasterState P) (job : Option (Hash × Nat)) : Prop where
  missing : t.missingBlocks = s.missingBlocks
  first : t.firstMissingNumber = s.firstMissingNumber
  next : t.nextToApply = s.nextToApply
  backlog : t.backlog = s.backlog
  grows : s.nextNeverAskedFor ≤ t.nextNeverAskedFor
  tracking : t.Tracking
  handed : ∀ j, job = some j → t.Job j

theorem Tracking.request (tracking : s.Tracking) {i : Nat} {job : Option (Hash × Nat)}
    (run : s.request now i = .ok (t, job)) (asked : i < s.nextNeverAskedFor) : s.Asks t job := by
  obtain ⟨times, written, run⟩ := Outcome.bind_eq_ok.mp run
  obtain ⟨hash, atI, run⟩ := Outcome.bind_eq_ok.mp run
  cases run
  refine ⟨rfl, rfl, rfl, rfl, Nat.le_refl _, ?_, ?_⟩
  · exact ⟨(setAt_eq_ok written).trans tracking.times, tracking.applied, tracking.asked, tracking.descending,
      tracking.ahead⟩
  · intro j same
    cases same
    exact ⟨i, asked, rfl, Outcome.unwrap_eq_ok.mp atI⟩

theorem Tracking.findNextBestJob (tracking : s.Tracking) {canAdvance : Bool} {job : Option (Hash × Nat)}
    (run : s.findNextBestJob p now canAdvance = .ok (t, job)) : s.Asks t job := by
  obtain ⟨waiting, found, run⟩ := Outcome.bind_eq_ok.mp run
  obtain ⟨overdue, longest⟩ := findWaiting_mem (fun i => i < s.nextNeverAskedFor) found
    (fun i member => by
      have := List.mem_range'_1.mp member
      omega)
    (fun j e impossible => by cases impossible)
  cases waiting with
  | inl i => exact tracking.request run (overdue i rfl)
  | inr oldest =>
    dsimp only at run
    split at run
    · obtain ⟨i, atOldest, run⟩ := Outcome.bind_eq_ok.mp run
      exact tracking.request run (longest i (by rw [Outcome.unwrap_eq_ok.mp atOldest]))
    split at run
    · next fresh =>
      have further : Tracking { s with nextNeverAskedFor := s.nextNeverAskedFor + 1 } := by
        refine ⟨tracking.times, Nat.le_succ_of_le tracking.applied, fresh, tracking.descending, ?_⟩
        intro entry member
        obtain ⟨above, below⟩ := tracking.ahead entry member
        exact ⟨above, by dsimp only; omega⟩
      have asks := further.request run (Nat.lt_succ_self _)
      exact ⟨asks.missing, asks.first, asks.next, asks.backlog, Nat.le_of_succ_le asks.grows, asks.tracking, asks.handed⟩
    split at run
    · next waits =>
      obtain ⟨hash, atNext, run⟩ := Outcome.bind_eq_ok.mp run
      cases run
      refine ⟨rfl, rfl, rfl, rfl, Nat.le_refl _, tracking, ?_⟩
      intro j same
      cases same
      exact ⟨s.nextToApply, waits, rfl, Outcome.unwrap_eq_ok.mp atNext⟩
    · cases run
      exact ⟨rfl, rfl, rfl, rfl, Nat.le_refl _, tracking, fun j same => by cases same⟩

/-- `apply_from_backlog` sends the longest run of consecutive numbers at the end
of the backlog. -/
theorem applyFromBacklog_spec (first : Nat) (backlog : List (P × Nat)) (next : Nat)
    (descending : backlog.Pairwise fun a b => b.2 < a.2) (ahead : ∀ entry ∈ backlog, first + next ≤ entry.2) :
    ∃ rest sent, applyFromBacklog first backlog.length backlog next = (rest, next + sent.length, sent) ∧
      backlog = rest ++ sent.reverse ∧ sent.map Prod.snd = List.range' (first + next) sent.length ∧
      ∀ entry ∈ rest, first + (next + sent.length) < entry.2 := by
  induction backlog using List.reverseRec generalizing next with
  | nil => exact ⟨[], [], rfl, rfl, rfl, by simp⟩
  | append_singleton init last ih =>
    obtain ⟨descendingInit, _, above⟩ := List.pairwise_append.mp descending
    have bigger : ∀ entry ∈ init, last.2 < entry.2 := fun entry member => above entry member last (by simp)
    rw [List.length_append, List.length_singleton, applyFromBacklog, List.getLast?_concat]
    dsimp only
    by_cases due : last.2 = first + next
    · obtain ⟨rest, sent, result, split, numbers, far⟩ := ih (next + 1) descendingInit fun entry member => by
        have := bigger entry member
        omega
      rw [if_pos due, List.dropLast_concat, result]
      refine ⟨rest, last :: sent, ?_, ?_, ?_, ?_⟩
      · simp only [List.length_cons]
        rw [show next + 1 + sent.length = next + (sent.length + 1) by omega]
      · rw [split, List.reverse_cons, List.append_assoc]
      · rw [List.map_cons, numbers, due, List.length_cons, List.range'_succ, Nat.add_assoc]
      · intro entry member
        have := far entry member
        rw [List.length_cons]
        omega
    · rw [if_neg due]
      refine ⟨init ++ [last], [], rfl, by simp, rfl, ?_⟩
      intro entry member
      have lower := ahead last (by simp)
      rcases List.mem_append.mp member with inInit | isLast
      · have := bigger entry inInit
        simp only [List.length_nil]
        omega
      · rw [List.mem_singleton.mp isLast]
        simp only [List.length_nil]
        omega

theorem sortedFor_backlog {backlog : List (P × Nat)} (descending : backlog.Pairwise fun a b => b.2 < a.2)
    (number : Nat) : SortedFor (fun entry => compare number entry.2) backlog := by
  refine descending.imp ?_
  intro a b order
  simp only [Nat.compare_eq_lt, Nat.compare_eq_gt]
  omega

/-- The reversed binary search keeps the backlog descending and without repetition. -/
theorem insertBacklog_spec {backlog : List (P × Nat)} (descending : backlog.Pairwise fun a b => b.2 < a.2)
    (block : P) (number : Nat) :
    ((insertBacklog block number backlog).Pairwise fun a b => b.2 < a.2) ∧
      number ∈ (insertBacklog block number backlog).map Prod.snd ∧
      (∀ entry ∈ backlog, entry ∈ insertBacklog block number backlog) ∧
      ∀ entry ∈ insertBacklog block number backlog, entry ∈ (block, number) :: backlog := by
  unfold insertBacklog
  cases search : binarySearchBy (fun entry => compare number entry.2) backlog with
  | ok i =>
    obtain ⟨entry, atI, equal⟩ := binarySearchBy_ok search
    refine ⟨descending, ?_, fun _ member => member, fun _ member => List.mem_cons_of_mem _ member⟩
    dsimp only
    rw [Nat.compare_eq_eq.mp equal]
    exact List.mem_map_of_mem (List.mem_of_getElem? atI)
  | error i =>
    obtain ⟨inside, below, above⟩ := (sortedFor_backlog descending number).binarySearchBy_error search
    have shape : backlog.insertIdx i (block, number) = backlog.take i ++ (block, number) :: backlog.drop i :=
      insertIdx_eq_append inside _
    have cut := List.take_append_drop i backlog
    rw [← cut, List.pairwise_append] at descending
    obtain ⟨left, right, across⟩ := descending
    dsimp only
    rw [shape]
    refine ⟨?_, by simp, ?_, ?_⟩
    · rw [List.pairwise_append, List.pairwise_cons]
      refine ⟨left, ⟨fun entry member => ?_, right⟩, fun a inLeft b member => ?_⟩
      · exact Nat.compare_eq_gt.mp (above entry member)
      · rcases List.mem_cons.mp member with same | inRight
        · rw [same]
          exact Nat.compare_eq_lt.mp (below a inLeft)
        · exact across a inLeft b inRight
    · intro entry member
      rw [← cut] at member
      rcases List.mem_append.mp member with inLeft | inRight
      · exact List.mem_append_left _ inLeft
      · exact List.mem_append_right _ (List.mem_cons_of_mem _ inRight)
    · intro entry member
      rcases List.mem_append.mp member with inLeft | inRight
      · exact List.mem_cons_of_mem _ (List.mem_of_mem_take inLeft)
      · rcases List.mem_cons.mp inRight with same | inRight
        · rw [same]
          exact List.mem_cons_self
        · exact List.mem_cons_of_mem _ (List.mem_of_mem_drop inRight)

/-- What a push does: the blocks sent continue the sequence, and every block seen
is sent or waits in the backlog. -/
structure Delivers (s : MasterState P) (pushed : P × Nat) (t : MasterState P) (sent : List (P × Nat)) : Prop where
  missing : t.missingBlocks = s.missingBlocks
  first : t.firstMissingNumber = s.firstMissingNumber
  asked : t.nextNeverAskedFor = s.nextNeverAskedFor
  next : t.nextToApply = s.nextToApply + sent.length
  numbers : sent.map Prod.snd = List.range' (s.firstMissingNumber + s.nextToApply) sent.length
  tracking : t.Tracking
  origin : ∀ entry ∈ sent ++ t.backlog, entry ∈ pushed :: s.backlog
  kept : ∀ entry ∈ pushed :: s.backlog,
    entry.2 < t.firstMissingNumber + t.nextToApply ∨ entry.2 ∈ t.backlog.map Prod.snd

/-- A block ahead of the next one joins the backlog. -/
theorem Tracking.pushResult_early (tracking : s.Tracking) (block : P) {number : Nat}
    (early : s.firstMissingNumber + s.nextToApply < number)
    (upper : number < s.firstMissingNumber + s.nextNeverAskedFor) :
    ∃ t sent, s.pushResult block number = (t, sent, .ok ()) ∧ s.Delivers (block, number) t sent := by
  obtain ⟨descending, present, keeps, origin⟩ := insertBacklog_spec tracking.descending block number
  have inside : number - s.firstMissingNumber < s.lastRequestTimes.length := by
    have := tracking.asked
    have := tracking.times
    omega
  rw [MasterState.pushResult, if_pos early]
  simp only [setAt, inside, if_true]
  refine ⟨_, _, rfl, rfl, rfl, rfl, rfl, rfl, ?_, ?_, ?_⟩
  · refine ⟨List.length_set.trans tracking.times, tracking.applied, tracking.asked, descending, ?_⟩
    intro entry member
    rcases List.mem_cons.mp (origin entry member) with same | old
    · rw [same]
      exact ⟨early, upper⟩
    · exact tracking.ahead entry old
  · intro entry member
    exact origin entry (by simpa using member)
  · intro entry member
    rcases List.mem_cons.mp member with same | old
    · rw [same]
      exact Or.inr present
    · exact Or.inr (List.mem_map_of_mem (keeps entry old))

/-- A block behind the next one is dropped. -/
theorem Tracking.pushResult_late (tracking : s.Tracking) (block : P) {number : Nat}
    (late : number < s.firstMissingNumber + s.nextToApply) :
    ∃ t sent, s.pushResult block number = (t, sent, .ok ()) ∧ s.Delivers (block, number) t sent := by
  rw [MasterState.pushResult, if_neg (by omega), if_pos late]
  refine ⟨s, [], rfl, rfl, rfl, rfl, rfl, rfl, tracking, ?_, ?_⟩
  · intro entry member
    exact List.mem_cons_of_mem _ (by simpa using member)
  · intro entry member
    rcases List.mem_cons.mp member with same | old
    · rw [same]
      exact Or.inl late
    · exact Or.inr (List.mem_map_of_mem old)

/-- The next block is sent, with those of the backlog that follow it. -/
theorem Tracking.pushResult_due (tracking : s.Tracking) (block : P) {number : Nat}
    (due : number = s.firstMissingNumber + s.nextToApply)
    (upper : number < s.firstMissingNumber + s.nextNeverAskedFor) :
    ∃ t sent, s.pushResult block number = (t, sent, .ok ()) ∧ s.Delivers (block, number) t sent := by
  obtain ⟨rest, sent, result, split, numbers, far⟩ := applyFromBacklog_spec s.firstMissingNumber
    s.backlog (s.nextToApply + 1) tracking.descending fun entry member => by
      have := (tracking.ahead entry member).1
      omega
  rw [MasterState.pushResult, if_neg (by omega), if_neg (by omega)]
  simp only [result]
  have parts : ∀ entry, entry ∈ s.backlog ↔ entry ∈ rest ∨ entry ∈ sent := by
    intro entry
    rw [split, List.mem_append, List.mem_reverse]
  have applied : s.nextToApply + 1 + sent.length ≤ s.nextNeverAskedFor := by
    rcases Nat.eq_zero_or_pos sent.length with empty | positive
    · omega
    · have last : s.firstMissingNumber + (s.nextToApply + 1) + (sent.length - 1) ∈ sent.map Prod.snd := by
        rw [numbers, List.mem_range'_1]
        omega
      obtain ⟨entry, member, level⟩ := List.mem_map.mp last
      have := (tracking.ahead entry ((parts entry).mpr (Or.inr member))).2
      omega
  refine ⟨_, _, rfl, rfl, rfl, rfl, ?_, ?_, ?_, ?_, ?_⟩
  · simp only [List.length_cons]
    omega
  · rw [List.map_cons, numbers, List.length_cons, List.range'_succ, due, Nat.add_assoc]
  · refine ⟨tracking.times, applied, tracking.asked, ?_, fun entry member => ⟨far entry member, ?_⟩⟩
    · have descending := tracking.descending
      rw [split] at descending
      exact (List.pairwise_append.mp descending).1
    · exact (tracking.ahead entry ((parts entry).mpr (Or.inl member))).2
  · intro entry member
    simp only [List.cons_append, List.mem_cons, List.mem_append] at member
    rcases member with same | inSent | inRest
    · rw [same]
      exact List.mem_cons_self
    · exact List.mem_cons_of_mem _ ((parts entry).mpr (Or.inr inSent))
    · exact List.mem_cons_of_mem _ ((parts entry).mpr (Or.inl inRest))
  · intro entry member
    rcases List.mem_cons.mp member with same | old
    · rw [same]
      left
      dsimp only
      omega
    · rcases (parts entry).mp old with inRest | inSent
      · exact Or.inr (List.mem_map_of_mem inRest)
      · have level := List.mem_map_of_mem (f := Prod.snd) inSent
        rw [numbers, List.mem_range'_1] at level
        left
        dsimp only
        omega

theorem Tracking.pushResult (tracking : s.Tracking) (block : P) (number : Nat)
    (upper : number < s.firstMissingNumber + s.nextNeverAskedFor) :
    ∃ t sent, s.pushResult block number = (t, sent, .ok ()) ∧ s.Delivers (block, number) t sent := by
  rcases Nat.lt_trichotomy number (s.firstMissingNumber + s.nextToApply) with late | due | early
  · exact tracking.pushResult_late block late
  · exact tracking.pushResult_due block due upper
  · exact tracking.pushResult_early block early upper

end MasterState

namespace Master

variable {P : Type} {blockHash : P → Hash} {p : Profile} {missing : List Hash} {first : Nat}

/-- What holds between the messages handled so far and the master's state. -/
structure Delivering (blockHash : P → Hash) (missing : List Hash) (first : Nat)
    (labels : List (Nat × DownloadWorkerMessage P)) (m : Master P) : Prop where
  list : m.state.missingBlocks = missing
  base : m.state.firstMissingNumber = first
  tracking : m.state.Tracking
  numbers : m.flushed.map Prod.snd = List.range' first m.state.nextToApply
  blocks : ∀ entry ∈ m.flushed ++ m.state.backlog, m.state.Job (blockHash entry.1, entry.2)
  handed : ∀ job ∈ m.handedOut, m.state.Job job
  pushed : ∀ now block number, (now, .pushResultAndGetNewJob block number) ∈ labels →
    number < first + m.state.nextToApply ∨ number ∈ m.state.backlog.map Prod.snd

/-- The search for the next job keeps the invariant. -/
theorem Delivering.asks {labels : List (Nat × DownloadWorkerMessage P)} {m : Master P}
    (kept : Delivering blockHash missing first labels m) {t : MasterState P} {job : Option (Hash × Nat)}
    (asks : m.state.Asks t job) :
    Delivering blockHash missing first labels ⟨t, true, m.flushed, m.handedOut ++ job.toList⟩ := by
  have grow : ∀ j, m.state.Job j → t.Job j := fun j known => known.mono asks.missing asks.first asks.grows
  refine ⟨asks.missing.trans kept.list, asks.first.trans kept.base, asks.tracking, ?_, ?_, ?_, ?_⟩
  · rw [kept.numbers, asks.next]
  · intro entry member
    rw [asks.backlog] at member
    exact grow _ (kept.blocks entry member)
  · intro j member
    rcases List.mem_append.mp member with old | fresh
    · exact grow _ (kept.handed j old)
    · exact asks.handed j (Option.mem_toList.mp fresh)
  · intro now block number member
    rw [asks.next, asks.backlog]
    exact kept.pushed now block number member

/-- A push keeps the invariant and adds its number to those seen. -/
theorem Delivering.delivers {labels : List (Nat × DownloadWorkerMessage P)} {m : Master P}
    (kept : Delivering blockHash missing first labels m) (now : Nat) {block : P} {number : Nat}
    (answers : (blockHash block, number) ∈ m.handedOut) {t : MasterState P} {sent : List (P × Nat)}
    (delivers : m.state.Delivers (block, number) t sent) (running : Bool) :
    Delivering blockHash missing first (labels ++ [(now, .pushResultAndGetNewJob block number)])
      ⟨t, running, m.flushed ++ sent, m.handedOut⟩ := by
  have same : ∀ j, m.state.Job j → t.Job j :=
    fun j known => known.mono delivers.missing delivers.first (Nat.le_of_eq delivers.asked.symm)
  have level := kept.base
  refine ⟨delivers.missing.trans kept.list, delivers.first.trans kept.base, delivers.tracking, ?_, ?_, ?_, ?_⟩
  · rw [List.map_append, kept.numbers, delivers.numbers, level, delivers.next, List.range'_append_1]
  · intro entry member
    rw [List.append_assoc, List.mem_append] at member
    rcases member with old | fresh
    · exact same _ (kept.blocks entry (List.mem_append_left _ old))
    · rcases List.mem_cons.mp (delivers.origin entry fresh) with pushed | waited
      · rw [pushed]
        exact same _ (kept.handed _ answers)
      · exact same _ (kept.blocks entry (List.mem_append_right _ waited))
  · intro j member
    exact same j (kept.handed j member)
  · intro time other n member
    have seen := delivers.kept
    rw [delivers.first, level] at seen
    rcases List.mem_append.mp member with old | fresh
    · rcases kept.pushed time other n old with applied | waits
      · left
        have := delivers.next
        dsimp only
        omega
      · obtain ⟨entry, inBacklog, rfl⟩ := List.mem_map.mp waits
        exact seen entry (List.mem_cons_of_mem _ inBacklog)
    · cases List.mem_singleton.mp fresh
      exact seen (block, number) List.mem_cons_self

theorem Delivering.start : Delivering blockHash missing first [] (Master.new missing first : Master P) := by
  refine ⟨rfl, rfl, ⟨List.length_replicate, Nat.le_refl _, Nat.zero_le _, .nil, ?_⟩, rfl, ?_, ?_, ?_⟩ <;>
    simp [Master.new, MasterState.new]

/-- The step lemma of block delivery. -/
theorem Delivering.step {labels : List (Nat × DownloadWorkerMessage P)} {m n : Master P}
    {label : Nat × DownloadWorkerMessage P} (kept : Delivering blockHash missing first labels m)
    (step : m.Step blockHash p label n) : Delivering blockHash missing first (labels ++ [label]) n := by
  obtain ⟨now, message⟩ := label
  obtain ⟨_, answers, rfl⟩ := step
  cases message with
  | pullFirstJob =>
    have unseen : ∀ u : Master P, Delivering blockHash missing first labels u →
        Delivering blockHash missing first (labels ++ [(now, .pullFirstJob)]) u := by
      intro u old
      refine ⟨old.list, old.base, old.tracking, old.numbers, old.blocks, old.handed, ?_⟩
      intro time block number member
      exact old.pushed time block number (by simpa using member)
    have idle : ∀ running, Delivering blockHash missing first (labels ++ [(now, .pullFirstJob)])
        ⟨m.state, running, m.flushed ++ [], m.handedOut⟩ := by
      intro running
      rw [List.append_nil]
      exact unseen _ ⟨kept.list, kept.base, kept.tracking, kept.numbers, kept.blocks, kept.handed, kept.pushed⟩
    simp only [handle, MasterState.handleWorkerMessage]
    cases found : m.state.findNextBestJob p now true with
    | ok reply => exact (idle true).asks ((idle true).tracking.findNextBestJob found)
    | err => exact idle false
    | fault => exact idle false
  | pushResultAndGetNewJob block number =>
    obtain ⟨i, asked, level, _⟩ := kept.handed _ answers
    obtain ⟨t, sent, result, delivers⟩ := kept.tracking.pushResult block number (by omega)
    have pushed := fun running => kept.delivers now answers delivers running
    simp only [handle, MasterState.handleWorkerMessage, result]
    cases found : t.findNextBestJob p now (t.backlog.length ≤ 512) with
    | ok reply => exact (pushed true).asks ((pushed true).tracking.findNextBestJob found)
    | err => exact pushed false
    | fault => exact pushed false

/-- The blocks sent on flush are the missing blocks in order, and all of them
once every job has been answered. -/
theorem flushed_in_order {labels : List (Nat × DownloadWorkerMessage P)} {m : Master P}
    (run : Run (Step blockHash p) (Master.new missing first) labels m) :
    m.flushed.map Prod.snd = List.range' first m.flushed.length ∧
      (∀ entry ∈ m.flushed, missing[entry.2 - first]? = some (blockHash entry.1)) ∧
      ((∀ i < missing.length, ∃ now block, (now, .pushResultAndGetNewJob block (first + i)) ∈ labels) →
        m.flushed.length = missing.length) := by
  have kept := run.history (P := Delivering blockHash missing first) .start fun _ _ _ _ => Delivering.step
  have count : m.flushed.length = m.state.nextToApply := by
    rw [← List.length_map Prod.snd, kept.numbers, List.length_range']
  refine ⟨by rw [kept.numbers, count], ?_, ?_⟩
  · intro entry member
    obtain ⟨i, _, level, atI⟩ := kept.blocks entry (List.mem_append_left _ member)
    rw [kept.list] at atI
    rw [kept.base] at level
    rw [show entry.2 - first = i by omega, atI]
  · intro all
    have applied := kept.tracking.applied
    have asked := kept.tracking.asked
    rw [kept.list] at asked
    by_contra short
    obtain ⟨now, block, member⟩ := all m.state.nextToApply (by omega)
    rcases kept.pushed now block _ member with before | waits
    · omega
    · obtain ⟨entry, inBacklog, level⟩ := List.mem_map.mp waits
      have ahead := (kept.tracking.ahead entry inBacklog).1
      rw [kept.base] at ahead
      omega

theorem step_of_running {m : Master P} {now : Nat} {message : DownloadWorkerMessage P} (running : m.running = true)
    (answers : m.Answers blockHash message) : m.Step blockHash p (now, message) (m.handle p now message) :=
  ⟨running, answers, rfl⟩

/-- Two jobs, answered in the wrong order and one of them twice. -/
theorem flushed_in_order_two :
    let messages : List (Nat × DownloadWorkerMessage Hash) :=
      [(1, .pullFirstJob), (1, .pullFirstJob), (2, .pushResultAndGetNewJob (ByteArr.fill 32 9) 8),
        (3, .pushResultAndGetNewJob (ByteArr.fill 32 7) 7), (4, .pushResultAndGetNewJob (ByteArr.fill 32 7) 7)]
    let done := messages.foldl (fun m label => m.handle .dev label.1 label.2)
      (Master.new [ByteArr.fill 32 7, ByteArr.fill 32 9] 7)
    done.flushed.map Prod.snd = [7, 8] := by
  intro messages done
  have run : Run (Step id .dev) (Master.new [ByteArr.fill 32 7, ByteArr.fill 32 9] 7) messages done :=
    .cons (step_of_running rfl trivial) (.cons (step_of_running rfl trivial)
      (.cons (step_of_running rfl (by decide)) (.cons (step_of_running rfl (by decide))
        (.single (step_of_running rfl (by decide))))))
  have count : done.flushed.length = 2 := rfl
  rw [(flushed_in_order run).1, count]
  rfl

end Master

end Bitlens

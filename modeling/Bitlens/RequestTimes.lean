import Bitlens.BlockDelivery

namespace Bitlens
open Lib

namespace MasterState

variable {P : Type}

/-- `apply_from_backlog` when flush takes only `accepts` more blocks: the first send
that fails ends the loop, after its block was popped and counted. -/
def drainBacklog (firstMissingNumber : Nat) :
    Nat → Nat → List (P × Nat) → Nat → List (P × Nat) × Nat × List (P × Nat)
  | 0, _, backlog, nextToApply => (backlog, nextToApply, [])
  | fuel + 1, accepts, backlog, nextToApply =>
    match backlog.getLast? with
    | none => (backlog, nextToApply, [])
    | some popped =>
      if popped.2 = firstMissingNumber + nextToApply then
        if accepts = 0 then (backlog.dropLast, nextToApply + 1, [])
        else
          let (rest, next, sent) :=
            drainBacklog firstMissingNumber fuel (accepts - 1) backlog.dropLast (nextToApply + 1)
          (rest, next, popped :: sent)
      else (backlog, nextToApply, [])

/-- The push half of `handle_worker_message` when flush takes only `accepts` more
blocks: the new state, the blocks sent, and whether the handler goes on to look for
a job, which it does not when the send of the pushed block itself fails. -/
def pushAccepted (accepts : Nat) (block : P) (number : Nat) (s : MasterState P) :
    Outcome (MasterState P × List (P × Nat) × Bool) :=
  if number > s.firstMissingNumber + s.nextToApply then do
    let times ← setAt s.lastRequestTimes (number - s.firstMissingNumber) 0
    pure ({ s with backlog := insertBacklog block number s.backlog, lastRequestTimes := times }, [], true)
  else if number < s.firstMissingNumber + s.nextToApply then pure (s, [], true)
  else if accepts = 0 then pure ({ s with nextToApply := s.nextToApply + 1 }, [], false)
  else
    let (backlog, next, sent) :=
      drainBacklog s.firstMissingNumber s.backlog.length (accepts - 1) s.backlog (s.nextToApply + 1)
    pure ({ s with backlog := backlog, nextToApply := next }, (block, number) :: sent, true)

/-- A job is one of the blocks still to apply that does not wait in the backlog, and
there is none exactly when every block has been applied. -/
structure Chosen (s : MasterState P) (job : Option (Hash × Nat)) : Prop where
  needed : ∀ j, job = some j → ∃ i, s.nextToApply ≤ i ∧ s.missingBlocks[i]? = some j.1 ∧
    j.2 = s.firstMissingNumber + i ∧ j.2 ∉ s.backlog.map Prod.snd
  finished : job = none ↔ s.nextToApply = s.missingBlocks.length

/-- `find_next_best_job` returns, with a job chosen so. -/
def Selects (p : Profile) (now : Nat) (canAdvance : Bool) (s : MasterState P) : Prop :=
  ∃ t job, s.findNextBestJob p now canAdvance = .ok (t, job) ∧ s.Chosen job

end MasterState

namespace MasterState

variable {P : Type} {s t : MasterState P} {p : Profile} {now clock : Nat}

/-- Every request time is a reading of the clock, and among the blocks asked for and
not applied it is zero exactly for those in the backlog. -/
structure Waiting (s : MasterState P) (clock : Nat) : Prop where
  tracking : s.Tracking
  clocked : ∀ requestedAt ∈ s.lastRequestTimes, requestedAt ≤ clock
  waits : ∀ i, s.nextToApply ≤ i → i < s.nextNeverAskedFor →
    (s.lastRequestTimes[i]? = some 0 ↔ s.firstMissingNumber + i ∈ s.backlog.map Prod.snd)

/-- The loop of `find_next_best_job` returns an index with a request time, at once only
after a second, and none only when no index has one. -/
theorem findWaiting_total {times : List Nat} {indices : List Nat} (oldest : Option (Nat × Nat)) {on : Nat → Prop}
    (inside : ∀ i ∈ indices, ∃ r, times[i]? = some r ∧ r ≤ now ∧ (r ≠ 0 → on i))
    (before : ∀ j e, oldest = some (j, e) → on j) :
    ∃ result, findWaiting p now times indices oldest = .ok result ∧ (∀ i, result = .inl i → on i ∧ 1000 < now) ∧
      (∀ i, result = .inr (some i) → on i) ∧
      (result = .inr none → oldest = none ∧ ∀ i ∈ indices, times[i]? = some 0) := by
  induction indices generalizing oldest with
  | nil =>
    refine ⟨_, rfl, by simp, ?_, ?_⟩
    · intro i found
      obtain ⟨entry, atOldest, same⟩ := Option.map_eq_some_iff.mp (Sum.inr.inj found)
      rw [← same]
      exact before entry.1 entry.2 atOldest
    · intro found
      exact ⟨Option.map_eq_none_iff.mp (Sum.inr.inj found), by simp⟩
  | cons i rest ih =>
    obtain ⟨r, atI, past, named⟩ := inside i List.mem_cons_self
    have tail : ∀ j ∈ rest, ∃ r, times[j]? = some r ∧ r ≤ now ∧ (r ≠ 0 → on j) :=
      fun j member => inside j (List.mem_cons_of_mem _ member)
    simp only [findWaiting, atI, Outcome.unwrap_some, Outcome.ok_bind]
    by_cases backed : r = 0
    · obtain ⟨result, run, overdue, longest, silent⟩ := ih _ tail before
      rw [if_pos backed]
      refine ⟨result, run, overdue, longest, fun none => ⟨(silent none).1, ?_⟩⟩
      intro j member
      rcases List.mem_cons.mp member with same | later
      · rw [same, atI, backed]
      · exact (silent none).2 j later
    · simp only [if_neg backed, Profile.sub_of_le past, Outcome.ok_bind]
      by_cases late : now - r > 1000
      · rw [if_pos late]
        refine ⟨_, rfl, fun j found => ?_, by simp, by simp⟩
        cases found
        exact ⟨named backed, by omega⟩
      · rw [if_neg late]
        -- block `i` takes the place of the longest wait or loses against it
        have kept : ∀ next : Option (Nat × Nat), next ≠ none → (∀ j e, next = some (j, e) → on j) →
            ∃ result, findWaiting p now times rest next = .ok result ∧ (∀ i, result = .inl i → on i ∧ 1000 < now) ∧
              (∀ i, result = .inr (some i) → on i) ∧
              (result = .inr none → oldest = none ∧ ∀ j ∈ i :: rest, times[j]? = some 0) := by
          intro next some known
          obtain ⟨result, run, overdue, longest, silent⟩ := ih _ tail known
          exact ⟨result, run, overdue, longest, fun none => absurd (silent none).1 some⟩
        cases oldest with
        | none =>
          refine kept _ (by simp) fun j e found => ?_
          cases found
          exact named backed
        | some previous =>
          dsimp only
          split
          · refine kept _ (by simp) fun j e found => ?_
            cases found
            exact named backed
          · refine kept _ (by simp) fun j e found => ?_
            cases found
            exact before _ _ rfl

theorem Waiting.mono (waiting : s.Waiting clock) (later : clock ≤ now) : s.Waiting now :=
  ⟨waiting.tracking, fun r member => (waiting.clocked r member).trans later, waiting.waits⟩

/-- The block waited for never waits in the backlog. -/
theorem Tracking.next_not_mem (tracking : s.Tracking) :
    s.firstMissingNumber + s.nextToApply ∉ s.backlog.map Prod.snd := by
  intro member
  obtain ⟨entry, inBacklog, level⟩ := List.mem_map.mp member
  have := (tracking.ahead entry inBacklog).1
  omega

/-- A backlog is there only while a block is waited for. -/
theorem Tracking.next_lt (tracking : s.Tracking) (backed : s.backlog ≠ []) : s.nextToApply < s.nextNeverAskedFor := by
  obtain ⟨entry, member⟩ := List.exists_mem_of_ne_nil _ backed
  have := tracking.ahead entry member
  omega

/-- A request for a block outside the backlog sets its time. -/
theorem Tracking.request_waiting (tracking : s.Tracking) (clocked : ∀ r ∈ s.lastRequestTimes, r ≤ now)
    (positive : 0 < now) {i : Nat} (asked : i < s.nextNeverAskedFor)
    (absent : s.firstMissingNumber + i ∉ s.backlog.map Prod.snd)
    (waits : ∀ j, s.nextToApply ≤ j → j < s.nextNeverAskedFor → j ≠ i →
      (s.lastRequestTimes[j]? = some 0 ↔ s.firstMissingNumber + j ∈ s.backlog.map Prod.snd)) :
    ∃ t hash, s.request now i = .ok (t, some (hash, s.firstMissingNumber + i)) ∧ s.missingBlocks[i]? = some hash ∧
      t.Waiting now := by
  have inside : i < s.missingBlocks.length := asked.trans_le tracking.asked
  have written : i < s.lastRequestTimes.length := tracking.times ▸ inside
  have run : s.request now i = .ok ({ s with lastRequestTimes := s.lastRequestTimes.set i now },
      some (s.missingBlocks[i], s.firstMissingNumber + i)) := by
    simp only [MasterState.request, setAt, if_pos written, Outcome.ok_bind, List.getElem?_eq_getElem inside, Outcome.unwrap_some,
      Outcome.pure_def]
  refine ⟨_, _, run, List.getElem?_eq_getElem inside, (tracking.request run asked).tracking, ?_, ?_⟩
  · intro r member
    rcases List.mem_or_eq_of_mem_set member with old | fresh
    · exact clocked r old
    · exact Nat.le_of_eq fresh
  · intro j lower upper
    dsimp only at lower upper ⊢
    by_cases same : i = j
    · subst same
      simp only [List.getElem?_set_self written, Option.some.injEq, absent, iff_false]
      omega
    · rw [List.getElem?_set_ne same]
      exact waits j lower upper (Ne.symm same)

theorem Waiting.request (waiting : s.Waiting now) (positive : 0 < now) {i : Nat} (due : s.nextToApply ≤ i)
    (asked : i < s.nextNeverAskedFor) (absent : s.firstMissingNumber + i ∉ s.backlog.map Prod.snd) :
    ∃ t job, s.request now i = .ok (t, job) ∧ t.Waiting now ∧ s.Chosen job := by
  obtain ⟨t, hash, run, atI, kept⟩ := waiting.tracking.request_waiting waiting.clocked positive asked absent
    fun j lower upper _ => waiting.waits j lower upper
  have further := waiting.tracking.asked
  refine ⟨t, _, run, kept, ?_, ?_⟩
  · intro j same
    cases same
    exact ⟨i, due, atI, rfl, absent⟩
  · simp only [reduceCtorEq, false_iff]
    omega

/-- The window of blocks asked for and not applied. -/
theorem Waiting.window (waiting : s.Waiting now) :
    ∀ i ∈ List.range' s.nextToApply (s.nextNeverAskedFor - s.nextToApply),
      ∃ r, s.lastRequestTimes[i]? = some r ∧ r ≤ now ∧
        (r ≠ 0 → s.nextToApply ≤ i ∧ i < s.nextNeverAskedFor ∧ s.firstMissingNumber + i ∉ s.backlog.map Prod.snd) := by
  intro i member
  have range := List.mem_range'_1.mp member
  have inside : i < s.lastRequestTimes.length := by
    have := waiting.tracking.asked
    have := waiting.tracking.times
    omega
  refine ⟨_, List.getElem?_eq_getElem inside, waiting.clocked _ (List.getElem_mem inside), ?_⟩
  intro named
  refine ⟨by omega, by omega, ?_⟩
  rw [← waiting.waits i (by omega) (by omega), List.getElem?_eq_getElem inside]
  simpa using named

/-- The search keeps the request times, and it finds a job unless all blocks are
applied; without room to advance the block waited for is one it can return. -/
theorem Waiting.findNextBestJob (waiting : s.Waiting now) (positive : 0 < now) (canAdvance : Bool)
    (backed : canAdvance = false → s.backlog ≠ []) :
    ∃ t job, s.findNextBestJob p now canAdvance = .ok (t, job) ∧ t.Waiting now ∧ s.Chosen job := by
  have tracking := waiting.tracking
  obtain ⟨result, search, overdue, longest, silent⟩ :=
    findWaiting_total (p := p) none waiting.window (by simp)
  have applied := tracking.applied
  have asked := tracking.asked
  simp only [MasterState.findNextBestJob, search, Outcome.ok_bind]
  cases result with
  | inl i =>
    obtain ⟨due, below, absent⟩ := (overdue i rfl).1
    exact waiting.request positive due below absent
  | inr oldest =>
    dsimp only
    by_cases full : canAdvance = false
    · rw [if_pos full]
      cases oldest with
      | none =>
        have lower := tracking.next_lt (backed full)
        have zero := (silent rfl).2 s.nextToApply (List.mem_range'_1.mpr (by omega))
        exact absurd ((waiting.waits _ (Nat.le_refl _) lower).mp zero) tracking.next_not_mem
      | some i =>
        obtain ⟨due, below, absent⟩ := longest i rfl
        exact waiting.request positive due below absent
    · rw [if_neg full]
      by_cases fresh : s.nextNeverAskedFor < s.missingBlocks.length
      · rw [if_pos fresh]
        have further : Tracking { s with nextNeverAskedFor := s.nextNeverAskedFor + 1 } := by
          refine ⟨tracking.times, Nat.le_succ_of_le applied, fresh, tracking.descending, ?_⟩
          intro entry member
          obtain ⟨above, below⟩ := tracking.ahead entry member
          exact ⟨above, Nat.lt_succ_of_lt below⟩
        have absent : s.firstMissingNumber + s.nextNeverAskedFor ∉ s.backlog.map Prod.snd := by
          intro member
          obtain ⟨entry, inBacklog, level⟩ := List.mem_map.mp member
          have := (tracking.ahead entry inBacklog).2
          omega
        obtain ⟨t, hash, run, atI, kept⟩ := further.request_waiting (i := s.nextNeverAskedFor) waiting.clocked positive
          (Nat.lt_succ_self _) absent fun j lower upper apart => waiting.waits j lower (by dsimp only at upper; omega)
        refine ⟨t, _, run, kept, ?_, ?_⟩
        · intro j same
          cases same
          exact ⟨_, applied, atI, rfl, absent⟩
        · simp only [reduceCtorEq, false_iff]
          omega
      rw [if_neg fresh]
      by_cases behind : s.nextToApply < s.nextNeverAskedFor
      · have inside := behind.trans_le asked
        simp only [if_pos behind, List.getElem?_eq_getElem inside, Outcome.unwrap_some, Outcome.ok_bind,
          Outcome.pure_def]
        refine ⟨s, _, rfl, waiting, ?_, ?_⟩
        · intro j same
          cases same
          exact ⟨_, Nat.le_refl _, List.getElem?_eq_getElem inside, rfl, tracking.next_not_mem⟩
        · simp only [reduceCtorEq, false_iff]
          omega
      · rw [if_neg behind]
        refine ⟨s, none, rfl, waiting, fun j same => (nomatch same), ?_⟩
        simp only [true_iff]
        omega

theorem Waiting.selects (waiting : s.Waiting clock) (later : clock ≤ now) (positive : 0 < now) {canAdvance : Bool}
    (backed : canAdvance = false → s.backlog ≠ []) : s.Selects p now canAdvance := by
  obtain ⟨t, job, run, _, chosen⟩ := (waiting.mono later).findNextBestJob (p := p) positive canAdvance backed
  exact ⟨t, job, run, chosen⟩

/-- Only a block ahead of its turn changes a request time. -/
theorem pushResult_times {block : P} {number : Nat} {sent : List (P × Nat)}
    (run : s.pushResult block number = (t, sent, .ok ())) :
    s.firstMissingNumber + s.nextToApply < number ∧
        t.lastRequestTimes = s.lastRequestTimes.set (number - s.firstMissingNumber) 0 ∨
      number ≤ s.firstMissingNumber + s.nextToApply ∧ t.lastRequestTimes = s.lastRequestTimes := by
  unfold pushResult at run
  split at run
  · next early =>
    split at run
    · next written =>
      unfold setAt at written
      split at written
      · cases run
        cases written
        exact Or.inl ⟨early, rfl⟩
      · cases written
    · cases run
  · next notEarly =>
    right
    refine ⟨Nat.le_of_not_lt notEarly, ?_⟩
    split at run
    · cases run
      rfl
    · cases run
      rfl

/-- The backlog after a push, from the block waited for on. -/
theorem Delivers.mem_backlog {block : P} {number : Nat} {sent : List (P × Nat)}
    (delivers : s.Delivers (block, number) t sent) {n : Nat} (due : t.firstMissingNumber + t.nextToApply ≤ n) :
    n ∈ t.backlog.map Prod.snd ↔ n = number ∨ n ∈ s.backlog.map Prod.snd := by
  constructor
  · intro member
    obtain ⟨entry, inBacklog, level⟩ := List.mem_map.mp member
    rcases List.mem_cons.mp (delivers.origin entry (List.mem_append_right _ inBacklog)) with pushed | old
    · left
      rw [← level, pushed]
    · right
      rw [← level]
      exact List.mem_map_of_mem old
  · intro member
    have known : ∃ entry ∈ (block, number) :: s.backlog, entry.2 = n := by
      rcases member with same | old
      · exact ⟨_, List.mem_cons_self, same.symm⟩
      · obtain ⟨entry, inBacklog, level⟩ := List.mem_map.mp old
        exact ⟨entry, List.mem_cons_of_mem _ inBacklog, level⟩
    obtain ⟨entry, seen, level⟩ := known
    rcases delivers.kept entry seen with applied | waits
    · omega
    · rw [← level]
      exact waits

/-- A push keeps the request times and the backlog in step. -/
theorem Waiting.pushResult (waiting : s.Waiting clock) {block : P} {number : Nat} {sent : List (P × Nat)}
    (lower : s.firstMissingNumber ≤ number) (run : s.pushResult block number = (t, sent, .ok ()))
    (delivers : s.Delivers (block, number) t sent) : t.Waiting clock := by
  have further : s.nextToApply ≤ t.nextToApply := by
    have := delivers.next
    omega
  have first := delivers.first
  have old : ∀ i, t.nextToApply ≤ i → i < t.nextNeverAskedFor → s.firstMissingNumber + i ≠ number →
      (s.lastRequestTimes[i]? = some 0 ↔ t.firstMissingNumber + i ∈ t.backlog.map Prod.snd) := by
    intro i due asked apart
    rw [delivers.mem_backlog (Nat.add_le_add_left due _), waiting.waits i (by omega) (delivers.asked ▸ asked), first,
      or_iff_right apart]
  refine ⟨delivers.tracking, ?_, ?_⟩
  · intro r member
    rcases pushResult_times run with ⟨_, written⟩ | ⟨_, same⟩
    · rw [written] at member
      rcases List.mem_or_eq_of_mem_set member with before | zero
      · exact waiting.clocked r before
      · rw [zero]
        exact Nat.zero_le _
    · exact waiting.clocked r (same ▸ member)
  · intro i due asked
    rcases pushResult_times run with ⟨early, written⟩ | ⟨notEarly, same⟩
    · by_cases pushed : s.firstMissingNumber + i = number
      · have inside : number - s.firstMissingNumber < s.lastRequestTimes.length := by
          have := delivers.asked
          have := waiting.tracking.asked
          have := waiting.tracking.times
          omega
        have place : i = number - s.firstMissingNumber := by omega
        rw [delivers.mem_backlog (Nat.add_le_add_left due _), first, written, place, List.getElem?_set_self inside]
        simp only [true_iff]
        omega
      · rw [written, List.getElem?_set_ne (by omega)]
        exact old i due asked pushed
    · rw [same]
      refine old i due asked ?_
      rcases delivers.kept (block, number) List.mem_cons_self with applied | waits
      · dsimp only at applied
        omega
      · obtain ⟨entry, inBacklog, level⟩ := List.mem_map.mp waits
        have := (delivers.tracking.ahead entry inBacklog).1
        dsimp only at level
        omega

/-- Where flush takes every due block, a drained backlog is an applied one. -/
theorem drainBacklog_of_accepts (first : Nat) {fuel accepts : Nat} {backlog : List (P × Nat)} {next : Nat}
    (takes : (applyFromBacklog first fuel backlog next).2.2.length ≤ accepts) :
    drainBacklog first fuel accepts backlog next = applyFromBacklog first fuel backlog next := by
  induction fuel generalizing accepts backlog next with
  | zero => rfl
  | succ fuel ih =>
    rw [applyFromBacklog] at takes ⊢
    rw [drainBacklog]
    cases last : backlog.getLast? with
    | none => rfl
    | some popped =>
      simp only [last] at takes ⊢
      by_cases due : popped.2 = first + next
      · simp only [if_pos due, List.length_cons] at takes ⊢
        rw [if_neg (by omega), ih (Nat.le_sub_of_add_le takes)]
      · simp only [if_neg due]

theorem pushAccepted_of_accepts {block : P} {number accepts : Nat} {sent : List (P × Nat)}
    (run : s.pushResult block number = (t, sent, .ok ())) (takes : sent.length ≤ accepts) :
    s.pushAccepted accepts block number = .ok (t, sent, true) := by
  unfold MasterState.pushResult at run
  unfold pushAccepted
  split
  · next early =>
    rw [if_pos early] at run
    cases written : setAt s.lastRequestTimes (number - s.firstMissingNumber) 0 with
    | ok times =>
      rw [written] at run
      cases run
      rfl
    | err =>
      rw [written] at run
      cases run
    | fault =>
      rw [written] at run
      cases run
  · next notEarly =>
    rw [if_neg notEarly] at run
    split
    · next late =>
      rw [if_pos late] at run
      cases run
      rfl
    · next notLate =>
      rw [if_neg notLate] at run
      cases run
      rw [List.length_cons] at takes
      rw [if_neg (by omega), drainBacklog_of_accepts _ (Nat.le_sub_of_add_le takes)]
      rfl

/-! After a failed send the block waited for is counted as applied, and everything else
asked for may wait in the backlog. -/

/-- With no request to repeat and no room to advance the search panics. -/
theorem findNextBestJob_silent (silent : ∀ i, s.nextToApply ≤ i → i < s.nextNeverAskedFor → s.lastRequestTimes[i]? = some 0) :
    s.findNextBestJob p now false = .fault := by
  have inside : ∀ i ∈ List.range' s.nextToApply (s.nextNeverAskedFor - s.nextToApply),
      ∃ r, s.lastRequestTimes[i]? = some r ∧ r ≤ now ∧ (r ≠ 0 → False) := by
    intro i member
    have range := List.mem_range'_1.mp member
    exact ⟨0, silent i (by omega) (by omega), Nat.zero_le _, fun named => named rfl⟩
  obtain ⟨result, search, overdue, longest, _⟩ := findWaiting_total (p := p) none inside (by simp)
  simp only [findNextBestJob, search, Outcome.ok_bind]
  cases result with
  | inl i => exact absurd (overdue i rfl).1 id
  | inr oldest =>
    cases oldest with
    | none => rfl
    | some i => exact absurd (longest i rfl) id

/-- Within the first second a search with room to advance asks for a new block. -/
theorem Waiting.findNextBestJob_fresh (waiting : s.Waiting now) (early : now ≤ 1000)
    (fresh : s.nextNeverAskedFor < s.missingBlocks.length) :
    ∃ t hash, s.findNextBestJob p now true = .ok (t, some (hash, s.firstMissingNumber + s.nextNeverAskedFor)) ∧
      s.missingBlocks[s.nextNeverAskedFor]? = some hash ∧ t.nextNeverAskedFor = s.nextNeverAskedFor + 1 := by
  obtain ⟨result, search, overdue, _, _⟩ := findWaiting_total (p := p) none waiting.window (by simp)
  have written : s.nextNeverAskedFor < s.lastRequestTimes.length := waiting.tracking.times ▸ fresh
  simp only [MasterState.findNextBestJob, search, Outcome.ok_bind]
  cases result with
  | inl i =>
    have := (overdue i rfl).2
    omega
  | inr oldest =>
    simp only [Bool.true_eq_false, if_false, if_pos fresh, MasterState.request, setAt, if_pos written, Outcome.ok_bind,
      List.getElem?_eq_getElem fresh, Outcome.unwrap_some, Outcome.pure_def]
    exact ⟨_, _, rfl, rfl, rfl⟩

/-- A failed send loses the block that was waited for. -/
theorem pushAccepted_lost {block : P} {number : Nat} (due : number = s.firstMissingNumber + s.nextToApply) :
    s.pushAccepted 0 block number = .ok ({ s with nextToApply := s.nextToApply + 1 }, [], false) := by
  simp only [pushAccepted, if_neg (Nat.not_lt_of_le (Nat.le_of_eq due)), if_neg (Nat.not_lt_of_le (Nat.le_of_eq due.symm)),
    if_true, Outcome.pure_def]

theorem pushAccepted_late {block : P} {number accepts : Nat} (late : number < s.firstMissingNumber + s.nextToApply) :
    s.pushAccepted accepts block number = .ok (s, [], true) := by
  simp only [pushAccepted, if_neg (Nat.not_lt_of_gt late), if_pos late, Outcome.pure_def]

theorem pushResult_early {block : P} {number : Nat} {sent : List (P × Nat)}
    (early : s.firstMissingNumber + s.nextToApply < number) (run : s.pushResult block number = (t, sent, .ok ())) :
    sent = [] ∧ t.nextToApply = s.nextToApply := by
  rw [MasterState.pushResult, if_pos early] at run
  split at run
  · cases run
    exact ⟨rfl, rfl⟩
  · cases run

end MasterState

end Bitlens

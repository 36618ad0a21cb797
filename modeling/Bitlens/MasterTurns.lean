import Mathlib.Data.List.Infix
import Mathlib.Data.List.InsertIdx
import Bitlens.JobSelection

namespace Bitlens
open Lib

/-- A job for one of the missing blocks. -/
def Listed (missing : List Hash) (first : Nat) (job : Hash × Nat) : Prop :=
  ∃ i, missing[i]? = some job.1 ∧ job.2 = first + i

namespace MasterState

variable {P : Type} {s t : MasterState P} {p : Profile} {now accepts number : Nat} {block : P} {sent : List (P × Nat)}
  {goesOn : Bool} {job : Option (Hash × Nat)}

/-- What `find_next_best_job` leaves alone in any state, and what its job is. -/
structure Searches (s t : MasterState P) (job : Option (Hash × Nat)) : Prop where
  missing : t.missingBlocks = s.missingBlocks
  first : t.firstMissingNumber = s.firstMissingNumber
  next : t.nextToApply = s.nextToApply
  backlog : t.backlog = s.backlog
  listed : ∀ j, job = some j → Listed s.missingBlocks s.firstMissingNumber j
  applied : job = none → s.missingBlocks.length ≤ s.nextToApply

theorem searches_of_request {i : Nat} (run : s.request now i = .ok (t, job)) : s.Searches t job := by
  obtain ⟨times, _, run⟩ := Outcome.bind_eq_ok.mp run
  obtain ⟨hash, atI, run⟩ := Outcome.bind_eq_ok.mp run
  cases run
  refine ⟨rfl, rfl, rfl, rfl, fun j same => ?_, fun absent => by cases absent⟩
  cases same
  exact ⟨i, Outcome.unwrap_eq_ok.mp atI, rfl⟩

theorem searches_of_findNextBestJob {canAdvance : Bool} (run : s.findNextBestJob p now canAdvance = .ok (t, job)) :
    s.Searches t job := by
  obtain ⟨waiting, _, run⟩ := Outcome.bind_eq_ok.mp run
  cases waiting with
  | inl i => exact searches_of_request run
  | inr oldest =>
    dsimp only at run
    split at run
    · obtain ⟨i, _, run⟩ := Outcome.bind_eq_ok.mp run
      exact searches_of_request run
    split at run
    · have kept := searches_of_request run
      exact ⟨kept.missing, kept.first, kept.next, kept.backlog, kept.listed, kept.applied⟩
    · next spent =>
      split at run
      · obtain ⟨hash, atNext, run⟩ := Outcome.bind_eq_ok.mp run
        cases run
        refine ⟨rfl, rfl, rfl, rfl, fun j same => ?_, fun absent => by cases absent⟩
        cases same
        exact ⟨s.nextToApply, Outcome.unwrap_eq_ok.mp atNext, rfl⟩
      · next applied =>
        cases run
        exact ⟨rfl, rfl, rfl, rfl, (fun j absent => by cases absent), fun _ => by omega⟩

theorem drainBacklog_origin (first : Nat) {fuel accepts : Nat} {backlog : List (P × Nat)} {next : Nat} :
    ∀ entry ∈ (drainBacklog first fuel accepts backlog next).2.2 ++ (drainBacklog first fuel accepts backlog next).1,
      entry ∈ backlog := by
  induction fuel generalizing accepts backlog next with
  | zero => exact fun entry member => member
  | succ fuel ih =>
    intro entry member
    rw [drainBacklog] at member
    cases last : backlog.getLast? with
    | none => simpa only [last, List.nil_append] using member
    | some popped =>
      have shorter : ∀ e ∈ backlog.dropLast, e ∈ backlog := fun e => List.mem_of_mem_dropLast
      simp only [last] at member
      split at member
      · split at member
        · exact shorter entry (by simpa using member)
        · rcases List.mem_cons.mp member with same | rest
          · rw [same]
            exact List.mem_of_getLast? last
          · exact shorter entry (ih entry rest)
      · simpa only [List.nil_append] using member

theorem insertBacklog_origin {backlog : List (P × Nat)} :
    ∀ entry ∈ insertBacklog block number backlog, entry ∈ (block, number) :: backlog := by
  intro entry member
  unfold insertBacklog at member
  split at member
  · exact List.eq_or_mem_of_mem_insertIdx member |>.elim (fun same => by simp [same]) (List.mem_cons_of_mem _)
  · exact List.mem_cons_of_mem _ member

/-- What is sent or waits was pushed now or waited before. -/
theorem pushAccepted_origin (run : s.pushAccepted accepts block number = .ok (t, sent, goesOn)) :
    t.missingBlocks = s.missingBlocks ∧ t.firstMissingNumber = s.firstMissingNumber ∧
      ∀ entry ∈ sent ++ t.backlog, entry ∈ (block, number) :: s.backlog := by
  unfold pushAccepted at run
  split at run
  · obtain ⟨times, _, run⟩ := Outcome.bind_eq_ok.mp run
    cases run
    exact ⟨rfl, rfl, insertBacklog_origin⟩
  split at run
  · cases run
    exact ⟨rfl, rfl, fun entry => List.mem_cons_of_mem _⟩
  split at run
  · cases run
    exact ⟨rfl, rfl, fun entry => List.mem_cons_of_mem _⟩
  · cases run
    refine ⟨rfl, rfl, ?_⟩
    intro entry member
    rcases List.mem_cons.mp member with same | rest
    · rw [same]
      exact List.mem_cons_self
    · exact List.mem_cons_of_mem _ (drainBacklog_origin _ entry rest)

theorem drainBacklog_prefix (first : Nat) {fuel accepts : Nat} {backlog : List (P × Nat)} {next : Nat} :
    (drainBacklog first fuel accepts backlog next).2.2 <+: (applyFromBacklog first fuel backlog next).2.2 := by
  induction fuel generalizing accepts backlog next with
  | zero => exact List.prefix_refl _
  | succ fuel ih =>
    rw [drainBacklog, applyFromBacklog]
    cases backlog.getLast? with
    | none => exact List.prefix_refl _
    | some popped =>
      dsimp only
      split
      · split
        · exact List.nil_prefix
        · exact List.cons_prefix_cons.mpr ⟨rfl, ih⟩
      · exact List.prefix_refl _

/-- What flush takes are the first of the blocks that the message sends. -/
theorem pushAccepted_prefix (run : s.pushAccepted accepts block number = .ok (t, sent, goesOn)) :
    sent <+: (s.pushResult block number).2.1 ∧ (accepts = 0 → sent = []) ∧
      (goesOn = false → accepts < (s.pushResult block number).2.1.length) := by
  unfold pushAccepted at run
  unfold MasterState.pushResult
  split at run
  · next early =>
    obtain ⟨times, written, run⟩ := Outcome.bind_eq_ok.mp run
    cases run
    exact ⟨List.nil_prefix, fun _ => rfl, fun absent => by cases absent⟩
  · next notEarly =>
    rw [if_neg notEarly]
    split at run
    · cases run
      exact ⟨List.nil_prefix, fun _ => rfl, fun absent => by cases absent⟩
    · next notLate =>
      rw [if_neg notLate]
      split at run
      · next refused =>
        cases run
        refine ⟨List.nil_prefix, fun _ => rfl, fun _ => ?_⟩
        rw [refused]
        exact Nat.succ_pos _
      · next taken =>
        cases run
        exact ⟨List.cons_prefix_cons.mpr ⟨rfl, drainBacklog_prefix _⟩, fun refused => absurd refused taken,
          fun absent => by cases absent⟩

end MasterState

namespace JobMaster

variable {P : Type} {p : Profile} {m : JobMaster P} {label : JobLabel P}

/-- What a message may change: blocks behind those flushed and at most one job behind those
handed out. A waiting block was pushed by the message or waited before. -/
structure Turns (m : JobMaster P) (message : DownloadWorkerMessage P) (sent : List (P × Nat))
    (job : Option (Hash × Nat)) (n : JobMaster P) : Prop where
  missing : n.state.missingBlocks = m.state.missingBlocks
  first : n.state.firstMissingNumber = m.state.firstMissingNumber
  flushed : n.flushed = m.flushed ++ sent
  handedOut : n.handedOut = m.handedOut ++ job.toList
  listed : ∀ j, job = some j → Listed m.state.missingBlocks m.state.firstMissingNumber j
  origin : ∀ entry ∈ sent ++ n.state.backlog, entry ∈ m.state.backlog ∨
    message = .pushResultAndGetNewJob entry.1 entry.2

theorem Turns.idle {message : DownloadWorkerMessage P} {running : Bool} {clock : Nat} {calls : List (JobCall P)} :
    m.Turns message [] none ⟨⟨m.state, running, m.flushed, m.handedOut⟩, clock, calls⟩ :=
  ⟨rfl, rfl, (List.append_nil _).symm, (List.append_nil _).symm, (fun _ absent => by cases absent), fun _ => Or.inl⟩

theorem turns_of_reply {now : Nat} {canAdvance : Bool} {message : DownloadWorkerMessage P} :
    ∃ job, m.Turns message [] job (m.reply p now canAdvance) ∧
      ((m.reply p now canAdvance).running = true → job = none →
        m.state.missingBlocks.length ≤ (m.reply p now canAdvance).state.nextToApply) := by
  unfold reply
  cases found : m.state.findNextBestJob p now canAdvance with
  | ok result =>
    have kept := MasterState.searches_of_findNextBestJob found
    refine ⟨result.2, ⟨kept.missing, kept.first, (List.append_nil _).symm, rfl, kept.listed, ?_⟩, fun _ absent => ?_⟩
    · intro entry member
      exact Or.inl (kept.backlog ▸ member)
    · exact (kept.applied absent).trans_eq kept.next.symm
  | err => exact ⟨none, .idle, fun absent => by cases absent⟩
  | fault => exact ⟨none, .idle, fun absent => by cases absent⟩

/-- The blocks that a message sends when every send succeeds. -/
def due (m : JobMaster P) : DownloadWorkerMessage P → List (P × Nat)
  | .pullFirstJob => []
  | .pushResultAndGetNewJob block number => (m.state.pushResult block number).2.1

/-- Where flush takes every block, a reply without a job means that all blocks were applied. -/
theorem turns_of_handle : ∃ sent job, m.Turns label.message sent job (m.handle p label) ∧
    sent <+: m.due label.message ∧ (label.accepts = 0 → sent = []) ∧
      (m.Sends label → (m.handle p label).running = true → job = none →
        m.state.missingBlocks.length ≤ (m.handle p label).state.nextToApply) := by
  obtain ⟨now, accepts, message⟩ := label
  cases message with
  | pullFirstJob =>
    obtain ⟨job, turns, applied⟩ := @turns_of_reply _ p m now true .pullFirstJob
    exact ⟨[], job, turns, List.nil_prefix, fun _ => rfl, fun _ => applied⟩
  | pushResultAndGetNewJob block number =>
    unfold handle
    dsimp only [due]
    cases pushed : m.state.pushAccepted accepts block number with
    | ok result =>
      obtain ⟨t, sent, goesOn⟩ := result
      obtain ⟨missing, first, origin⟩ := MasterState.pushAccepted_origin pushed
      have waits : ∀ entry ∈ sent ++ t.backlog, entry ∈ m.state.backlog ∨
          DownloadWorkerMessage.pushResultAndGetNewJob block number = .pushResultAndGetNewJob entry.1 entry.2 := by
        intro entry member
        rcases List.mem_cons.mp (origin entry member) with same | old
        · exact Or.inr (by rw [same])
        · exact Or.inl old
      obtain ⟨front, refused, stops⟩ := MasterState.pushAccepted_prefix pushed
      cases goesOn with
      | true =>
        obtain ⟨job, turns, applied⟩ := @turns_of_reply _ p
          ⟨⟨t, true, m.flushed ++ sent, m.handedOut⟩, m.clock, m.calls⟩ now (t.backlog.length ≤ 512)
          (.pushResultAndGetNewJob block number)
        refine ⟨sent, job, ⟨turns.missing.trans missing, turns.first.trans first, ?_, turns.handedOut, ?_, ?_⟩, front,
          refused, fun _ running absent => missing ▸ applied running absent⟩
        · exact turns.flushed.trans (List.append_nil _)
        · intro j same
          have listed := turns.listed j same
          rwa [missing, first] at listed
        · intro entry member
          rcases List.mem_append.mp member with inSent | inBacklog
          · exact waits entry (List.mem_append_left _ inSent)
          · rcases turns.origin entry inBacklog with old | fresh
            · exact waits entry (List.mem_append_right _ old)
            · exact Or.inr fresh
      | false =>
        exact ⟨sent, none,
          ⟨missing, first, rfl, (List.append_nil _).symm, (fun j absent => by cases absent), waits⟩, front, refused,
          fun takes => absurd takes (Nat.not_le_of_gt (stops rfl))⟩
    | err => exact ⟨[], none, .idle, List.nil_prefix, fun _ => rfl, fun _ absent => by cases absent⟩
    | fault => exact ⟨[], none, .idle, List.nil_prefix, fun _ => rfl, fun _ absent => by cases absent⟩

end JobMaster

end Bitlens

import Bitlens.Lib.Run
import Mathlib.Data.List.Basic
import Mathlib.Tactic.Tauto

namespace Bitlens
open Lib

/-- Where the loop of `receive_and_process_blocks` stands: before its condition,
in `get_next_batch_to_flush`, waiting for the previous flush, or left. -/
inductive Receiver (B : Type) where
  | checking
  | receiving (batch : List B)
  | waiting (batch : List B)
  | finished
  deriving DecidableEq

/-- The blocks of the batch under construction. -/
def Receiver.batch {B : Type} : Receiver B → List B
  | .receiving batch => batch
  | .waiting batch => batch
  | _ => []

/-- The flush channel of capacity one between the master and the block writer.
`handed` are the batches given to `write_analyzed_txs`. -/
structure FlushChannel (B : Type) where
  buffer : Option B
  senderOpen : Bool
  receiver : Receiver B
  flushing : Bool
  sent : List B
  handed : List (List B)
  deriving DecidableEq

inductive FlushEvent (B : Type) where
  | send (block : B)
  | dropSender
  | isClosed
  | recv
  | flushed
  | handOver
  deriving DecidableEq

namespace FlushChannel

variable {B : Type}

def start : FlushChannel B := ⟨none, true, .checking, false, [], []⟩

/-- The steps of the master, of the block writer and of the spawned write.
`is_closed` looks at the sender only; `recv` drains the channel first. -/
inductive Step (maxBlocksPerFlush : Nat) : FlushChannel B → FlushEvent B → FlushChannel B → Prop
  | send {s} (block : B) : s.senderOpen = true → s.buffer = none →
      Step maxBlocksPerFlush s (.send block) { s with buffer := some block, sent := s.sent ++ [block] }
  | dropSender {s} : s.senderOpen = true → Step maxBlocksPerFlush s .dropSender { s with senderOpen := false }
  | nextBatch {s} : s.receiver = .checking → s.senderOpen = true →
      Step maxBlocksPerFlush s .isClosed { s with receiver := .receiving [] }
  | leave {s} : s.receiver = .checking → s.senderOpen = false →
      Step maxBlocksPerFlush s .isClosed { s with receiver := .finished }
  | recvLast {s batch block} : s.receiver = .receiving batch → s.buffer = some block →
      (batch ++ [block]).length = maxBlocksPerFlush →
      Step maxBlocksPerFlush s .recv { s with buffer := none, receiver := .waiting (batch ++ [block]) }
  | recvMore {s batch block} : s.receiver = .receiving batch → s.buffer = some block →
      (batch ++ [block]).length ≠ maxBlocksPerFlush →
      Step maxBlocksPerFlush s .recv { s with buffer := none, receiver := .receiving (batch ++ [block]) }
  | recvNone {s batch} : s.receiver = .receiving batch → s.buffer = none → s.senderOpen = false →
      Step maxBlocksPerFlush s .recv { s with receiver := .waiting batch }
  | flushed {s} : s.flushing = true → Step maxBlocksPerFlush s .flushed { s with flushing := false }
  | handOver {s batch} : s.receiver = .waiting batch → s.flushing = false →
      Step maxBlocksPerFlush s .handOver
        { s with receiver := .checking, flushing := true, handed := s.handed ++ [batch] }

/-- The step of an event, computed; `none` when its party has to wait. -/
def next (maxBlocksPerFlush : Nat) (s : FlushChannel B) : FlushEvent B → Option (FlushChannel B)
  | .send block =>
    match s.senderOpen, s.buffer with
    | true, none => some { s with buffer := some block, sent := s.sent ++ [block] }
    | _, _ => none
  | .dropSender => if s.senderOpen then some { s with senderOpen := false } else none
  | .isClosed =>
    match s.receiver with
    | .checking => some { s with receiver := if s.senderOpen then .receiving [] else .finished }
    | _ => none
  | .recv =>
    match s.receiver, s.buffer with
    | .receiving batch, some block =>
      some { s with
        buffer := none
        receiver :=
          if (batch ++ [block]).length = maxBlocksPerFlush then .waiting (batch ++ [block])
          else .receiving (batch ++ [block]) }
    | .receiving batch, none => if s.senderOpen then none else some { s with receiver := .waiting batch }
    | _, _ => none
  | .flushed => if s.flushing then some { s with flushing := false } else none
  | .handOver =>
    match s.receiver, s.flushing with
    | .waiting batch, false => some { s with receiver := .checking, flushing := true, handed := s.handed ++ [batch] }
    | _, _ => none

theorem step_of_next {max : Nat} {s t : FlushChannel B} {event : FlushEvent B}
    (result : s.next max event = some t) : Step max s event t := by
  cases event with
  | send block =>
    simp only [next] at result
    split at result
    · next opened empty => cases result; exact .send block opened empty
    · cases result
  | dropSender =>
    simp only [next] at result
    split at result
    · next opened => cases result; exact .dropSender opened
    · cases result
  | isClosed =>
    simp only [next] at result
    split at result
    · next atHead =>
      cases result
      split
      · next opened => exact .nextBatch atHead opened
      · next closed => exact .leave atHead (by simpa using closed)
    · cases result
  | recv =>
    simp only [next] at result
    split at result
    · next batch block atRecv full =>
      cases result
      split
      · next last => exact .recvLast atRecv full last
      · next more => exact .recvMore atRecv full more
    · next batch atRecv empty =>
      split at result
      · cases result
      · next closed => cases result; exact .recvNone atRecv empty (by simpa using closed)
    · cases result
  | flushed =>
    simp only [next] at result
    split at result
    · next busy => cases result; exact .flushed busy
    · cases result
  | handOver =>
    simp only [next] at result
    split at result
    · next batch atWait idle => cases result; exact .handOver atWait idle
    · cases result

/-- The loop is not left with a block in the channel, no batch ends before its
first block, and the batch size is positive. -/
def Keeps (maxBlocksPerFlush : Nat) (s : FlushChannel B) : FlushEvent B → Prop
  | .isClosed => s.senderOpen = false → s.buffer = none
  | .recv => (s.buffer = none → s.receiver ≠ .receiving []) ∧ (s.buffer ≠ none → 0 < maxBlocksPerFlush)
  | _ => True

/-- What the writer gets is what the master sent, in batches of a legal size. -/
def Complete (maxBlocksPerFlush : Nat) (s : FlushChannel B) : Prop :=
  s.handed.flatten = s.sent ∧ ∀ batch ∈ s.handed, batch ≠ [] ∧ batch.length ≤ maxBlocksPerFlush

variable {max : Nat} {s t : FlushChannel B} {event : FlushEvent B} {events : List (FlushEvent B)}

/-- Every block sent is in a batch handed over, in the batch under construction,
or in the channel. -/
theorem conserved (run : Run (Step max) start events s) :
    s.handed.flatten ++ s.receiver.batch ++ s.buffer.toList = s.sent := by
  refine run.invariant (P := fun s => s.handed.flatten ++ s.receiver.batch ++ s.buffer.toList = s.sent) rfl ?_
  intro s event t kept step
  cases step with
  | send block opened empty =>
    rw [empty, Option.toList_none, List.append_nil] at kept
    rw [← kept]
    rfl
  | dropSender => exact kept
  | nextBatch atHead => simpa [atHead, Receiver.batch] using kept
  | leave atHead => simpa [atHead, Receiver.batch] using kept
  | recvLast atRecv full => simpa [atRecv, full, Receiver.batch] using kept
  | recvMore atRecv full => simpa [atRecv, full, Receiver.batch] using kept
  | recvNone atRecv empty => simpa [atRecv, empty, Receiver.batch] using kept
  | flushed => exact kept
  | handOver atWait => simpa [atWait, Receiver.batch] using kept

/-- What the condition keeps: legal batches, and an empty channel at the end. -/
structure Sound (max : Nat) (s : FlushChannel B) : Prop where
  handed : ∀ batch ∈ s.handed, batch ≠ [] ∧ batch.length ≤ max
  receiving : ∀ batch, s.receiver = .receiving batch → batch = [] ∨ batch.length < max
  waiting : ∀ batch, s.receiver = .waiting batch → batch ≠ [] ∧ batch.length ≤ max
  finished : s.receiver = .finished → s.senderOpen = false ∧ s.buffer = none

theorem Sound.step (sound : s.Sound max) (keeps : s.Keeps max event) (step : Step max s event t) : t.Sound max := by
  cases step with
  | send block opened empty =>
    refine ⟨sound.handed, sound.receiving, sound.waiting, fun done => ?_⟩
    have closed := (sound.finished done).1
    rw [opened] at closed
    cases closed
  | dropSender opened => exact ⟨sound.handed, sound.receiving, sound.waiting, fun done => ⟨rfl, (sound.finished done).2⟩⟩
  | nextBatch =>
    refine ⟨sound.handed, fun batch same => ?_, fun batch same => (nomatch same), fun same => (nomatch same)⟩
    cases same
    exact Or.inl rfl
  | leave atHead closed =>
    exact ⟨sound.handed, fun batch same => (nomatch same), fun batch same => (nomatch same),
      fun _ => ⟨closed, keeps closed⟩⟩
  | recvLast atRecv full last =>
    refine ⟨sound.handed, fun batch same => (nomatch same), fun batch same => ?_, fun same => (nomatch same)⟩
    cases same
    exact ⟨by simp, Nat.le_of_eq last⟩
  | recvMore atRecv full more =>
    refine ⟨sound.handed, fun batch same => ?_, fun batch same => (nomatch same), fun same => (nomatch same)⟩
    cases same
    have positive := keeps.2 (by simp [full])
    rw [List.length_append, List.length_singleton] at more ⊢
    rcases sound.receiving _ atRecv with empty | short
    · rw [empty, List.length_nil] at more ⊢
      omega
    · omega
  | @recvNone batch atRecv empty closed =>
    refine ⟨sound.handed, fun batch same => (nomatch same), fun batch same => ?_, fun same => (nomatch same)⟩
    cases same
    have nonempty : batch ≠ [] := fun none => keeps.1 empty (by rw [atRecv, none])
    exact ⟨nonempty, Nat.le_of_lt ((sound.receiving _ atRecv).resolve_left nonempty)⟩
  | flushed => exact ⟨sound.handed, sound.receiving, sound.waiting, sound.finished⟩
  | handOver atWait =>
    refine ⟨?_, fun batch same => (nomatch same), fun batch same => (nomatch same), fun same => (nomatch same)⟩
    intro batch member
    rcases List.mem_append.mp member with old | last
    · exact sound.handed batch old
    · rw [List.mem_singleton.mp last]
      exact sound.waiting _ atWait

/-- What a step that breaks the condition leaves behind: an illegal batch or a
block that nobody will receive. -/
def Spoiled (max : Nat) (s : FlushChannel B) : Prop :=
  s.receiver = .waiting [] ∨ (∃ batch ∈ s.handed, batch = [] ∨ max < batch.length) ∨
    max < s.receiver.batch.length ∨ (s.receiver = .finished ∧ s.senderOpen = false ∧ s.buffer ≠ none)

theorem spoiled_of_not_keeps (step : Step max s event t) (breaks : ¬ s.Keeps max event) : t.Spoiled max := by
  cases step with
  | send | dropSender | flushed | handOver => exact absurd trivial breaks
  | nextBatch atHead opened => exact absurd (fun closed => by simp [opened] at closed) breaks
  | leave atHead closed =>
    exact Or.inr (Or.inr (Or.inr ⟨rfl, closed, fun empty => breaks fun _ => empty⟩))
  | recvLast atRecv full last | recvMore atRecv full more =>
    have zero : max = 0 := by
      by_contra positive
      exact breaks ⟨fun empty => by simp [full] at empty, fun _ => by omega⟩
    right; right; left
    simp [zero, Receiver.batch]
  | @recvNone batch atRecv empty closed =>
    left
    have none : batch = [] := by
      by_contra nonempty
      refine breaks ⟨fun _ same => nonempty ?_, fun full => absurd empty full⟩
      rw [atRecv] at same
      exact Receiver.receiving.inj same
    rw [none]

theorem Spoiled.step (spoiled : s.Spoiled max) (step : Step max s event t) : t.Spoiled max := by
  rcases spoiled with empty | handed | long | ⟨done, closed, buffered⟩
  · cases step with
    | send | dropSender | flushed => exact Or.inl empty
    | nextBatch other | leave other | recvLast other | recvMore other | recvNone other =>
      rw [empty] at other
      cases other
    | handOver atWait =>
      rw [empty] at atWait
      cases atWait
      exact Or.inr (Or.inl ⟨[], by simp, Or.inl rfl⟩)
  · right; left
    obtain ⟨batch, member, illegal⟩ := handed
    cases step with
    | handOver => exact ⟨batch, List.mem_append_left _ member, illegal⟩
    | _ => exact ⟨batch, member, illegal⟩
  · cases step with
    | send | dropSender | flushed => exact Or.inr (Or.inr (Or.inl long))
    | nextBatch atHead | leave atHead => simp [atHead, Receiver.batch] at long
    | recvLast atRecv | recvMore atRecv =>
      rw [atRecv] at long
      simp only [Receiver.batch] at long
      right; right; left
      simp only [Receiver.batch, List.length_append, List.length_singleton]
      omega
    | recvNone atRecv =>
      rw [atRecv] at long
      exact Or.inr (Or.inr (Or.inl long))
    | @handOver batch atWait =>
      rw [atWait] at long
      exact Or.inr (Or.inl ⟨batch, by simp, Or.inr long⟩)
  · right; right; right
    cases step with
    | send block opened => simp [opened] at closed
    | dropSender => exact ⟨done, rfl, buffered⟩
    | flushed => exact ⟨done, closed, buffered⟩
    | nextBatch other | leave other | recvLast other | recvMore other | recvNone other | handOver other =>
      rw [done] at other
      cases other

/-- A finished run is complete exactly when each of its steps keeps to the
condition. -/
theorem complete_iff (run : Run (Step max) start events s) (finished : s.receiver = .finished) :
    s.Complete max ↔ Run (Guarded (Keeps max) (Step max)) start events s := by
  have account := conserved run
  rw [finished, show (Receiver.finished : Receiver B).batch = [] from rfl, List.append_nil] at account
  constructor
  · intro complete
    refine (run.guarded_or (fun _ _ _ => spoiled_of_not_keeps) fun _ _ _ step bad => bad.step step).resolve_right ?_
    rintro (empty | ⟨batch, member, illegal⟩ | long | ⟨_, _, buffered⟩)
    · rw [finished] at empty
      cases empty
    · obtain ⟨nonempty, short⟩ := complete.2 batch member
      exact illegal.elim nonempty (by omega)
    · simp [finished, Receiver.batch] at long
    · rw [complete.1] at account
      cases full : s.buffer with
      | none => exact buffered full
      | some block => simp [full] at account
  · intro guarded
    have sound : s.Sound max := guarded.invariant (P := Sound max)
      ⟨by simp [start], by simp [start], by simp [start], by simp [start]⟩
      fun _ _ _ sound step => sound.step step.1 step.2
    rw [(sound.finished finished).2, Option.toList_none, List.append_nil] at account
    exact ⟨account, sound.handed⟩

/-- One block; the master drops its sender while the writer waits for a second. -/
theorem complete_iff_one :
    Complete 2 (⟨none, false, .finished, true, [7], [[7]]⟩ : FlushChannel Nat) := by
  have run : Run (Guarded (Keeps 2) (Step 2)) start
      [.isClosed, .send 7, .recv, .dropSender, .recv, .handOver, .isClosed]
      (⟨none, false, .finished, true, [7], [[7]]⟩ : FlushChannel Nat) :=
    .cons ⟨fun closed => (nomatch closed), step_of_next rfl⟩ (.cons ⟨trivial, step_of_next rfl⟩
      (.cons ⟨⟨fun empty => (nomatch empty), fun _ => by decide⟩, step_of_next rfl⟩
        (.cons ⟨trivial, step_of_next rfl⟩
          (.cons ⟨⟨fun _ => by decide, fun full => absurd rfl full⟩, step_of_next rfl⟩
            (.cons ⟨trivial, step_of_next rfl⟩ (.single ⟨fun _ => rfl, step_of_next rfl⟩))))))
  exact (complete_iff run.unguarded rfl).mpr run

/-- A full batch of 64 blocks, one more block in the channel, and then the drop. -/
def lostBlockEvents : List (FlushEvent Nat) :=
  .isClosed :: (List.range 64).flatMap (fun block => [.send block, .recv]) ++
    [.send 64, .dropSender, .handOver, .isClosed]

/-- The loop ends with the 65th block still in the channel. -/
theorem complete_fails : ¬ ∀ (events : List (FlushEvent Nat)) (s : FlushChannel Nat),
    Run (Step 64) start events s → s.receiver = .finished → s.Complete 64 := by
  intro claim
  have result : runFn (next 64) start lostBlockEvents =
      some ⟨some 64, false, .finished, true, List.range 65, [List.range 64]⟩ := by decide +kernel
  have complete := claim _ _ (Run.of_runFn (fun _ _ _ => step_of_next) result) rfl
  exact absurd complete.1 (by decide)

end FlushChannel

end Bitlens

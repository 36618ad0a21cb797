import Bitlens.AppliedBlocks
import Bitlens.ChainEvents

namespace Bitlens
open Lib

/-- Where the task that `start` spawns is: before `need_ihd` is asked, in `sync_headers`,
in `generate_frontpage_data` with or without blocks to download, between the changes of
the two flags, in `sync_blocks`, or behind it. -/
inductive Startup where
  | deciding
  | syncingHeaders
  | frontpage (missing : Bool)
  | switching
  | syncingBlocks
  | done
  deriving DecidableEq

/-- The task of `start` has not yet listed the blocks to download. -/
def Startup.Early : Startup → Prop
  | .deciding | .syncingHeaders => True
  | _ => False

/-- A call of `handle_payload`: it has loaded the first flag, or it knows what it sends
to the chain watcher. -/
inductive PeerTask where
  | loaded (payload : ReceivedPayload) (shouldProcessHeaders : Bool)
  | sending (items : List (BlockHeaderOwned ⊕ Block))

/-- What `handle_payload` sends, in order. -/
def sendsOf (shouldProcessHeaders shouldProcessBlocks : Bool) : ReceivedPayload → List (BlockHeaderOwned ⊕ Block)
  | .block block =>
    (if shouldProcessHeaders then [.inl block.header] else []) ++ if shouldProcessBlocks then [.inr block] else []
  | .headers headers => if shouldProcessHeaders then headers.map .inl else []
  | _ => []

/-- The capacity of both channels to the chain watcher. -/
def channelCapacity : Nat := 16

/-- What `handle_new_block` takes off the queue for a block; `none` when it returns
before. -/
def takeBlock (sha256 : Bytes → Hash) (block : Block) : List QueueEntry → Outcome (Option (QueueEntry × List QueueEntry))
  | [] => .ok none
  | entry :: queue =>
    if block.header.hash ≠ entry.hash then .ok none
    else
      match (if segwitHeight ≤ entry.number then verifyWitnessCommitment sha256 block else .ok () : Outcome Unit) with
      | .err => .ok none
      | .fault => .fault
      | .ok _ => .ok (some (entry, queue))

variable {sha256 : Bytes → Hash} {block : Block} {entry : QueueEntry} {before queue : List QueueEntry}

theorem takeBlock_some (taken : takeBlock sha256 block before = .ok (some (entry, queue))) :
    before = entry :: queue ∧ block.header.hash = entry.hash := by
  unfold takeBlock at taken
  split at taken
  · cases taken
  · split at taken
    · cases taken
    · next same =>
      split at taken
      · cases taken
      · cases taken
      · cases taken
        exact ⟨rfl, not_not.mp same⟩

/-- A block that passes the checks is taken. -/
theorem takeBlock_of_checks (checks : Checks sha256 block entry) :
    takeBlock sha256 block (entry :: queue) = .ok (some (entry, queue)) := by
  rw [takeBlock, if_neg (not_not.mpr checks.1)]
  split
  · next refused =>
    split at refused
    · next segwit => cases refused.symm.trans (checks.2 segwit)
    · cases refused
  · next panics =>
    split at panics
    · next segwit => cases panics.symm.trans (checks.2 segwit)
    · cases panics
  · rfl

/-- `handle_new_block` takes the block off the queue and then applies it. -/
theorem handleNewBlock_of_block {p : Profile} {scripts : Scripts} {env : Surroundings} (s : Keepup) :
    handleNewBlock p sha256 scripts env (some (.block block)) s =
      match takeBlock sha256 block s.queue with
      | .ok (some (entry, queue)) =>
        match applyBlock p scripts env block entry.strategy s.chainman with
        | (w, done, .ok _) => (⟨⟨w, queue⟩, s.effects ++ done ++ [.announced entry.hash]⟩, .ok ())
        | (w, done, _) => (⟨⟨w, queue⟩, s.effects ++ done⟩, .fault)
      | .ok none => (s, .ok ())
      | _ => (s, .fault) := by
  unfold handleNewBlock takeBlock
  cases s.queue with
  | nil => rfl
  | cons entry queue =>
    dsimp only
    by_cases same : block.header.hash ≠ entry.hash
    · rw [if_pos same, if_pos same]
    · rw [if_neg same, if_neg same]
      cases (if segwitHeight ≤ entry.number then verifyWitnessCommitment sha256 block else .ok () : Outcome Unit) with
      | ok _ => rfl
      | err => rfl
      | fault => rfl

/-- The block of a call of `mark_as_downloaded` that returned. -/
def KeepupEffect.markedBlock : KeepupEffect → Option Hash
  | .markedAsDownloaded hash => some hash
  | _ => none

/-- The program from `start` on. `left` are the blocks that the snapshot lists and
`sync_blocks` has not marked; `inHand` is the block that `apply_block` works on, and
`watching` ends when the chain watcher panics without the lock. -/
structure Node extends Watcher where
  inHand : Option (Block × QueueEntry)
  watching : Bool
  receivedHeaders : List BlockHeaderOwned
  receivedBlocks : List Block
  peers : List PeerTask
  startup : Startup
  left : List Hash
  syncingHeaders : Bool
  syncingBodies : Bool

/-- What the tasks do without another one in between. -/
inductive NodeEvent where
  | startSyncingHeaders
  | page (headers : List BlockHeaderOwned)
  | snapshot
  | frontpageGenerated
  | stopSyncingHeaders
  | flushed (coinbaseAsciis : List Bytes)
  | syncedBlocks
  | receives (payload : ReceivedPayload)
  | checks (task : Nat)
  | sends (task : Nat)
  | newHeader
  | newBlock
  | applied (env : Surroundings)

namespace Node

def start (w : Chainman) : Node := ⟨⟨w, []⟩, none, true, [], [], [], .deciding, [], false, false⟩

/-- `get_block_hashes_to_download`, under the lock that the task holds since header sync. -/
def takeSnapshot (s : Node) (w : Chainman) : Option Node :=
  match w.getBlockHashesToDownload with
  | .ok answer =>
    some { s with
      chainman := w
      startup := .frontpage answer.isSome
      left := (answer.map Prod.fst).getD [] }
  | _ => none

/-- A step that panics with the chain locked poisons the lock, and no step that needs it
follows; it is left out. -/
def next (p : Profile) (sha256 : Bytes → Hash) (scripts : Scripts) (s : Node) : NodeEvent → Option Node
  | .startSyncingHeaders =>
    if s.startup = .deciding then some { s with startup := .syncingHeaders, syncingHeaders := true } else none
  | .page headers =>
    if s.startup = .syncingHeaders then
      match s.chainman.validateAndApplyHeaders p headers with
      | (_, .fault) => none
      | (w, _) => some { s with chainman := w }
    else none
  | .snapshot =>
    match s.startup with
    | .deciding => s.takeSnapshot s.chainman
    | .syncingHeaders =>
      match ChainEvent.synced.next p s.chainman with
      | .ok w => s.takeSnapshot w
      | _ => none
    | _ => none
  | .frontpageGenerated =>
    match s.startup with
    | .frontpage true => some { s with startup := .switching, syncingBodies := true }
    | .frontpage false => some { s with startup := .done, syncingHeaders := false }
    | _ => none
  | .stopSyncingHeaders =>
    if s.startup = .switching then some { s with startup := .syncingBlocks, syncingHeaders := false } else none
  | .flushed coinbaseAsciis =>
    -- the batches are cut from the front of the list
    if s.startup = .syncingBlocks ∧ coinbaseAsciis.length ≤ s.left.length then
      match s.chainman.markAsDownloaded (s.left.zip coinbaseAsciis) with
      | .ok w => some { s with chainman := w, left := s.left.drop coinbaseAsciis.length }
      | _ => none
    else none
  | .syncedBlocks =>
    -- the writer can end with blocks left, which it then never marks
    if s.startup = .syncingBlocks then some { s with startup := .done, syncingBodies := false } else none
  | .receives payload => some { s with peers := s.peers ++ [.loaded payload !s.syncingHeaders] }
  | .checks task =>
    match s.peers[task]? with
    | some (.loaded payload shouldProcessHeaders) =>
      let shouldProcessBlocks := shouldProcessHeaders && !s.syncingBodies
      some { s with peers := s.peers.set task (.sending (sendsOf shouldProcessHeaders shouldProcessBlocks payload)) }
    | _ => none
  | .sends task =>
    match s.peers[task]? with
    | some (.sending (.inl header :: items)) =>
      if s.receivedHeaders.length < channelCapacity then
        some { s with receivedHeaders := s.receivedHeaders ++ [header], peers := s.peers.set task (.sending items) }
      else none
    | some (.sending (.inr block :: items)) =>
      if s.receivedBlocks.length < channelCapacity then
        some { s with receivedBlocks := s.receivedBlocks ++ [block], peers := s.peers.set task (.sending items) }
      else none
    | _ => none
  | .newHeader =>
    match s.watching, s.inHand, s.receivedHeaders with
    | true, none, header :: rest =>
      match handleNewHeader p header s.toWatcher with
      | (w, .ok _) => some { s with toWatcher := w, receivedHeaders := rest }
      | _ => none
    | _, _, _ => none
  | .newBlock =>
    match s.watching, s.inHand, s.receivedBlocks with
    | true, none, block :: rest =>
      match takeBlock sha256 block s.queue with
      | .ok (some (entry, queue)) => some { s with queue := queue, inHand := some (block, entry), receivedBlocks := rest }
      | .ok none => some { s with receivedBlocks := rest }
      | _ => some { s with watching := false, receivedBlocks := rest }
    | _, _, _ => none
  | .applied env =>
    match s.inHand with
    | some (block, entry) =>
      match applyBlock p scripts env block entry.strategy s.chainman with
      | (w, _, .ok _) => some { s with chainman := w, inHand := none }
      | (w, _, _) => some { s with chainman := w, inHand := none, watching := false }
    | none => none

def Step (p : Profile) (sha256 : Bytes → Hash) (scripts : Scripts) (s : Node) (event : NodeEvent) (t : Node) : Prop :=
  s.next p sha256 scripts event = some t

/-- The blocks of the call of `mark_as_downloaded` in a step, if there is one that returns. -/
def marks (p : Profile) (scripts : Scripts) (s : Node) : NodeEvent → List Hash
  | .flushed coinbaseAsciis => s.left.take coinbaseAsciis.length
  | .applied env =>
    match s.inHand with
    | some (block, entry) =>
      (applyBlock p scripts env block entry.strategy s.chainman).2.1.filterMap KeepupEffect.markedBlock
    | none => []
  | _ => []

variable {p : Profile} {sha256 : Bytes → Hash} {scripts : Scripts} {s t : Node} {event : NodeEvent}

theorem marks_of_inHand {env : Surroundings} {block : Block} {entry : QueueEntry} (held : s.inHand = some (block, entry)) :
    s.marks p scripts (.applied env) =
      (applyBlock p scripts env block entry.strategy s.chainman).2.1.filterMap KeepupEffect.markedBlock := by
  rw [marks, held]

/-- What a step can do. The quiet ones leave the chain and the work of the chain watcher
alone. -/
inductive Move (p : Profile) (scripts : Scripts) (s : Node) : NodeEvent → Node → Prop
  | quiet {event : NodeEvent} {t : Node} : t.toWatcher = s.toWatcher → t.inHand = s.inHand → t.left = s.left →
      (t.watching = true → s.watching = true) → (t.startup ≠ .syncingHeaders → s.startup ≠ .syncingHeaders) →
        (t.startup.Early ↔ s.startup.Early) → s.marks p scripts event = [] → Move p scripts s event t
  | page {headers : List BlockHeaderOwned} {w : Chainman} {outcome : Outcome Unit} : s.startup = .syncingHeaders →
      s.chainman.validateAndApplyHeaders p headers = (w, outcome) → outcome ≠ .fault →
        Move p scripts s (.page headers) { s with chainman := w }
  | deciding {t : Node} : s.startup = .deciding → s.takeSnapshot s.chainman = some t → Move p scripts s .snapshot t
  | synced {w : Chainman} {t : Node} : s.startup = .syncingHeaders → ChainEvent.synced.next p s.chainman = .ok w →
      s.takeSnapshot w = some t → Move p scripts s .snapshot t
  | flushed {coinbaseAsciis : List Bytes} {w : Chainman} : s.startup = .syncingBlocks →
      coinbaseAsciis.length ≤ s.left.length → s.chainman.markAsDownloaded (s.left.zip coinbaseAsciis) = .ok w →
        Move p scripts s (.flushed coinbaseAsciis) { s with chainman := w, left := s.left.drop coinbaseAsciis.length }
  | header {header : BlockHeaderOwned} {rest : List BlockHeaderOwned} {w : Watcher} : s.watching = true → s.inHand = none →
      s.receivedHeaders = header :: rest → handleNewHeader p header s.toWatcher = (w, .ok ()) →
        Move p scripts s .newHeader { s with toWatcher := w, receivedHeaders := rest }
  | taken {block : Block} {rest : List Block} {entry : QueueEntry} {queue : List QueueEntry} : s.watching = true →
      s.inHand = none → s.receivedBlocks = block :: rest → s.queue = entry :: queue → block.header.hash = entry.hash →
        Move p scripts s .newBlock { s with queue := queue, inHand := some (block, entry), receivedBlocks := rest }
  | applied {env : Surroundings} {block : Block} {entry : QueueEntry} {w : Chainman} {done : List KeepupEffect}
      {outcome : Outcome Unit} {watching : Bool} : s.inHand = some (block, entry) →
        applyBlock p scripts env block entry.strategy s.chainman = (w, done, outcome) →
          (watching = true → s.watching = true ∧ outcome = .ok ()) →
            Move p scripts s (.applied env) { s with chainman := w, inHand := none, watching := watching }

/-- Only the phase changes, from one that is behind the headers, and the flags of the tasks. -/
theorem Move.ofStartup {before startup : Startup} {headers bodies : Bool} (atPhase : s.startup = before)
    (other : before ≠ .syncingHeaders) (early : startup.Early ↔ before.Early) (unmarked : s.marks p scripts event = []) :
    s.Move p scripts event { s with startup := startup, syncingHeaders := headers, syncingBodies := bodies } :=
  .quiet rfl rfl rfl id (fun _ => atPhase ▸ other) (atPhase ▸ early) unmarked

theorem move_of_page {headers : List BlockHeaderOwned} (step : s.next p sha256 scripts (.page headers) = some t) :
    s.Move p scripts (.page headers) t := by
  unfold next at step
  dsimp only at step
  split at step
  · next during =>
    split at step
    · cases step
    · next returns applied =>
      cases step
      exact .page during applied returns
  · cases step

theorem move_of_snapshot (step : s.next p sha256 scripts .snapshot = some t) : s.Move p scripts .snapshot t := by
  unfold next at step
  dsimp only at step
  split at step
  · next before => exact .deciding before step
  · next before =>
    split at step
    · next w synced => exact .synced before synced step
    · cases step
  · cases step

theorem move_of_flushed {coinbaseAsciis : List Bytes}
    (step : s.next p sha256 scripts (.flushed coinbaseAsciis) = some t) :
    s.Move p scripts (.flushed coinbaseAsciis) t := by
  unfold next at step
  dsimp only at step
  split at step
  · next during =>
    split at step
    · next w result =>
      cases step
      exact .flushed during.1 during.2 result
    · cases step
  · cases step

/-- A task that sends to the chain watcher leaves the chain alone. -/
theorem move_of_sends {task : Nat} (step : s.next p sha256 scripts (.sends task) = some t) :
    s.Move p scripts (.sends task) t := by
  unfold next at step
  dsimp only at step
  split at step
  · split at step
    · cases step
      exact .quiet rfl rfl rfl id id Iff.rfl rfl
    · cases step
  · split at step
    · cases step
      exact .quiet rfl rfl rfl id id Iff.rfl rfl
    · cases step
  · cases step

theorem move_of_newBlock (step : s.next p sha256 scripts .newBlock = some t) : s.Move p scripts .newBlock t := by
  unfold next at step
  dsimp only at step
  split at step
  · next block rest watching idle received =>
    split at step
    · next entry queue taken =>
      cases step
      obtain ⟨waiting, fits⟩ := takeBlock_some taken
      exact .taken watching idle received waiting fits
    · cases step
      exact .quiet rfl rfl rfl id id Iff.rfl rfl
    · cases step
      exact .quiet rfl rfl rfl (fun on => by cases on) id Iff.rfl rfl
  · cases step

theorem move_of_applied {env : Surroundings} (step : s.next p sha256 scripts (.applied env) = some t) :
    s.Move p scripts (.applied env) t := by
  unfold next at step
  dsimp only at step
  split at step
  · next block entry held =>
    split at step
    · next w done returned result =>
      cases step
      exact .applied held result fun on => ⟨on, rfl⟩
    · next w done outcome panics result =>
      cases step
      exact .applied held result fun on => by cases on
  · cases step

theorem Step.move (step : s.Step p sha256 scripts event t) : s.Move p scripts event t := by
  unfold Step at step
  cases event with
  | startSyncingHeaders =>
    dsimp only [next] at step
    split at step
    · next before =>
      cases step
      exact .quiet rfl rfl rfl id (fun other => absurd rfl other) (by rw [before]; exact Iff.rfl) rfl
    · cases step
  | page headers => exact move_of_page step
  | snapshot => exact move_of_snapshot step
  | frontpageGenerated =>
    dsimp only [next] at step
    split at step
    · next before =>
      cases step
      exact .ofStartup before Startup.noConfusion Iff.rfl rfl
    · next before =>
      cases step
      exact .ofStartup before Startup.noConfusion Iff.rfl rfl
    · cases step
  | stopSyncingHeaders =>
    dsimp only [next] at step
    split at step
    · next before =>
      cases step
      exact .ofStartup before Startup.noConfusion Iff.rfl rfl
    · cases step
  | flushed coinbaseAsciis => exact move_of_flushed step
  | syncedBlocks =>
    dsimp only [next] at step
    split at step
    · next before =>
      cases step
      exact .ofStartup before Startup.noConfusion Iff.rfl rfl
    · cases step
  | receives payload =>
    cases step
    exact .quiet rfl rfl rfl id id Iff.rfl rfl
  | checks task =>
    dsimp only [next] at step
    split at step
    · cases step
      exact .quiet rfl rfl rfl id id Iff.rfl rfl
    · cases step
  | sends task => exact move_of_sends step
  | newHeader =>
    dsimp only [next] at step
    split at step
    · next header rest watching idle received =>
      split at step
      · next w handled =>
        cases step
        exact .header watching idle received handled
      · cases step
    · cases step
  | newBlock => exact move_of_newBlock step
  | applied env => exact move_of_applied step

end Node

end Bitlens

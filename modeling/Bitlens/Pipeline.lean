import Bitlens.Packets
import Bitlens.Lib.Run
import Bitlens.Lib.SstFile

namespace Bitlens
open Lib

/-- Outputs of a transaction, copied into one of the two arenas at some generation
of it. -/
structure ArenaTxouts where
  txouts : List TxOut
  arena : Bool
  generation : Nat

/-- A task of `process_block`: spawned, waiting for its lookups on disk, or done. -/
inductive ProcessTask where
  | spawned (block : Block)
  | fetching (block : Block) (lookups : List TxIn) (loadedDeps : List (Option TxOut))
  | done

/-- The flush of the previous batch, with the arena that holds its data. -/
structure BatchFlush where
  batch : List Block
  arena : Bool
  generation : Nat
  written : Bool

/-- The block writer with its two sets of buffers. `incoming` are the blocks not yet
received, `batch` those of the batch under construction, `passed` the dependencies
given to `analyze_tx` for each transaction of a block. -/
structure Pipeline where
  incoming : List Block
  disk : Hash → Option (List TxOut)
  currentTxouts : Hash → Option ArenaTxouts
  previousTxouts : Hash → Option ArenaTxouts
  generation : Bool → Nat
  currentArena : Bool
  batch : List Block
  tasks : List ProcessTask
  flush : Option BatchFlush
  passed : List (Block × List (List TxOut))
  panicked : Bool

inductive PipelineEvent where
  | insert
  | fetch (task : Nat)
  | load (task lookup : Nat)
  | assemble (task : Nat)
  | write (sorted : List (Hash × List TxOut))
  | flushed
  | swap

namespace Pipeline

def start (disk : Hash → Option (List TxOut)) (blocks : List Block) : Pipeline where
  incoming := blocks
  disk := disk
  currentTxouts := fun _ => none
  previousTxouts := fun _ => none
  generation := fun _ => 0
  currentArena := false
  batch := []
  tasks := []
  flush := none
  passed := []
  panicked := false

/-- The txouts of a transaction in memory: `current_txouts` first. -/
def find (s : Pipeline) (hash : Hash) : Option ArenaTxouts :=
  match s.currentTxouts hash with
  | some txouts => some txouts
  | none => s.previousTxouts hash

/-- The inputs that `fetch_missing_dependencies` looks up on disk, in its order. -/
def missing (s : Pipeline) (block : Block) : List TxIn :=
  (block.txs.flatMap (·.txins)).filter fun txin =>
    decide (txin.prevoutHash ≠ emptyHash) && (s.find txin.prevoutHash).isNone

/-- `insert_transactions_from_block`. -/
def insertTransactions (s : Pipeline) (block : Block) : Hash → Option ArenaTxouts :=
  block.txs.foldl (fun map tx => mapInsert map tx.hash ⟨tx.txouts, s.currentArena, s.generation s.currentArena⟩)
    s.currentTxouts

/-- The dependency array of one transaction and the new `deps_from_disk_index`;
`none` is a panic or a read from an arena that was reset. -/
def assembleTxins (s : Pipeline) (depsFromDisk : List TxOut) : List TxIn → Nat → Option (List TxOut × Nat)
  | [], index => some ([], index)
  | txin :: rest, index =>
    if txin.prevoutHash = emptyHash then s.assembleTxins depsFromDisk rest index
    else
      match s.find txin.prevoutHash with
      | some entry =>
        if entry.generation = s.generation entry.arena then
          entry.txouts[txin.prevoutIndex.toNat]?.bind fun dep =>
            (s.assembleTxins depsFromDisk rest index).map fun (deps, index) => (dep :: deps, index)
        else none
      | none =>
        depsFromDisk[index]?.bind fun dep =>
          (s.assembleTxins depsFromDisk rest (index + 1)).map fun (deps, index) => (dep :: deps, index)

/-- The dependency arrays of a block's transactions. -/
def assembleTxs (s : Pipeline) (depsFromDisk : List TxOut) : List Tx → Nat → Option (List (List TxOut))
  | [], _ => some []
  | tx :: rest, index =>
    (s.assembleTxins depsFromDisk tx.txins index).bind fun (deps, index) =>
      (s.assembleTxs depsFromDisk rest index).map (deps :: ·)

def fail (s : Pipeline) (task : Nat) : Pipeline :=
  { s with tasks := s.tasks.set task .done, panicked := true }

/-- The pairs of transaction hash and txouts that a batch gives to `write_txouts`. -/
def batchTxouts (batch : List Block) : List (Hash × List TxOut) :=
  (batch.flatMap (·.txs)).map fun tx => (tx.hash, tx.txouts)

/-- One step: the writer receives the next block and spawns its task; a task looks
for missing dependencies, loads one, or assembles all and analyses; the flush of the
previous batch writes or ends; the batch is handed over and the buffers swap. -/
def next (s : Pipeline) : PipelineEvent → Option Pipeline
  | .insert =>
    match s.incoming with
    | [] => none
    | block :: rest =>
      some { s with
        incoming := rest
        currentTxouts := s.insertTransactions block
        batch := s.batch ++ [block]
        tasks := s.tasks ++ [.spawned block] }
  | .fetch task =>
    match s.tasks[task]? with
    | some (.spawned block) =>
      some { s with
        tasks := s.tasks.set task
          (.fetching block (s.missing block) (List.replicate (s.missing block).length none)) }
    | _ => none
  | .load task lookup =>
    match s.tasks[task]? with
    | some (.fetching block lookups loadedDeps) =>
      match lookups[lookup]? with
      | none => none
      | some txin =>
        match (s.disk txin.prevoutHash).bind fun txouts => txouts[txin.prevoutIndex.toNat]? with
        | some dep => some { s with tasks := s.tasks.set task (.fetching block lookups (loadedDeps.set lookup (some dep))) }
        | none => some (s.fail task)
    | _ => none
  | .assemble task =>
    match s.tasks[task]? with
    | some (.fetching block _ loadedDeps) =>
      if loadedDeps.all Option.isSome then
        match s.assembleTxs (loadedDeps.filterMap id) block.txs 0 with
        | some deps => some { s with tasks := s.tasks.set task .done, passed := s.passed ++ [(block, deps)] }
        | none => some (s.fail task)
      else none
    | _ => none
  | .write sorted =>
    match s.flush with
    | some flush =>
      if flush.written = false ∧ SortsBy Prod.fst (batchTxouts flush.batch) sorted then
        if flush.generation = s.generation flush.arena then
          some { s with
            disk := writeSst s.disk (skipRepeats Prod.fst emptyHash sorted)
            flush := some { flush with written := true } }
        else some { s with panicked := true }
      else none
    | none => none
  | .flushed =>
    match s.flush with
    | some flush => if flush.written then some { s with flush := none } else none
    | none => none
  | .swap =>
    -- the batch's tasks and the previous flush are collected before the swap
    if s.flush.isNone ∧ s.tasks.all (fun task => task matches .done) then
      some { s with
        currentTxouts := fun _ => none
        previousTxouts := s.currentTxouts
        generation := fun arena => if arena = !s.currentArena then s.generation arena + 1 else s.generation arena
        currentArena := !s.currentArena
        batch := []
        tasks := []
        flush := some ⟨s.batch, s.currentArena, s.generation s.currentArena, false⟩ }
    else none

def Step (s : Pipeline) (event : PipelineEvent) (t : Pipeline) : Prop := s.next event = some t

/-- The lookups of a task whose transactions are still not in memory are the first ones. -/
def Prefixed (s : Pipeline) : Option ProcessTask → Prop
  | some (.fetching _ lookups _) => (lookups.filter fun txin => (s.find txin.prevoutHash).isNone) <+: lookups
  | _ => True

instance (s : Pipeline) : (task : Option ProcessTask) → Decidable (s.Prefixed task)
  | some (.fetching _ _ _) => inferInstanceAs (Decidable (_ <+: _))
  | some (.spawned _) => inferInstanceAs (Decidable True)
  | some .done => inferInstanceAs (Decidable True)
  | none => inferInstanceAs (Decidable True)

/-- No transaction that a task looked up on disk is in memory by the time its block is
assembled, unless all that it looked up after that one are. -/
def Aligned (s : Pipeline) : PipelineEvent → Prop
  | .assemble task => s.Prefixed s.tasks[task]?
  | _ => True

instance (s : Pipeline) : (event : PipelineEvent) → Decidable (s.Aligned event)
  | .assemble task => inferInstanceAs (Decidable (s.Prefixed s.tasks[task]?))
  | .insert | .fetch _ | .load _ _ | .write _ | .flushed | .swap => inferInstanceAs (Decidable True)

end Pipeline

end Bitlens

import Bitlens.BranchSwitch
import Bitlens.BlockServing
import Bitlens.Counterparties

namespace Bitlens
open Lib

/-- What a lookup task reads. -/
def storedOutputs (store : Hash → Option Bytes) (hash : Hash) : Option (List TxOut) :=
  match getTransactionOutputs store hash with
  | .ok txouts => some txouts
  | _ => none

/-- What the lookup task of `apply_block` with this index reads. -/
def lookupOutputs (stores : Stores) (block : Block) (task : Nat) : Option (List TxOut) :=
  match pendingDeps (selfTxs block) block.spends [] with
  | .ok (_, handles) => handles[task]?.bind fun txin => storedOutputs stores.txouts txin.prevoutHash
  | _ => none

/-- The block of a call of `write_analyzed_txs` that returned. -/
def KeepupEffect.writtenBlock : KeepupEffect → Option AnalyzedBlock
  | .wroteAnalyzedTxs analyzed => some analyzed
  | _ => none

/-- The chain watcher with the key-value stores. `written` are the blocks whose records were written,
the latest one last. -/
structure Ledger extends Watcher where
  stores : Stores
  written : List Block

/-- A block comes with what its call meets; the lookups read the stores. -/
inductive LedgerEvent where
  | header (header : BlockHeaderOwned)
  | block (block : Block) (env : Surroundings)

def Surroundings.reading (env : Surroundings) (stores : Stores) (block : Block) : Surroundings :=
  { env with lookup := lookupOutputs stores block }

/-- The outputs that a block's inputs spend, by transaction and index. -/
def Block.outpoints (block : Block) : List (ByteArr 36) :=
  (block.txs.filter fun tx => !tx.isCoinbase).flatMap serializeSpends

/-- The block spends the outpoint, and the value says with which transaction. -/
def Block.Spends (block : Block) (outpoint : ByteArr 36) (value : Bytes) : Prop :=
  ∃ tx ∈ block.txs, tx.isCoinbase = false ∧ outpoint ∈ serializeSpends tx ∧ value = tx.hash.1 ++ block.header.hash.1

/-- Two blocks of one branch: no transaction is in both, and no output is spent by both. -/
structure Block.Apart (earlier block : Block) : Prop where
  blocks : earlier.header.hash ≠ block.header.hash
  txs : ∀ tx ∈ earlier.txs, ∀ tx' ∈ block.txs, tx.hash ≠ tx'.hash
  outpoints : ∀ outpoint ∈ earlier.outpoints, outpoint ∉ block.outpoints

/-- The stores have the records that `write_analyzed_txs` makes of the block. -/
def Recorded (p : Profile) (scripts : Scripts) (stores : Stores) (block : Block) : Prop :=
  ∃ analyzed, AnalyzesBlock p scripts block analyzed ∧
    (∀ record ∈ analyzed.txs, stores.txs record.hash = some record.analyzedTx ∧
      stores.txouts record.hash = some record.txOuts) ∧
    stores.blockTxs block.header.hash = some (serializedTxhashes analyzed) ∧
    ∀ spend ∈ blockSpends analyzed, stores.spends spend.1 = some spend.2

namespace Ledger

/-- A writer that gets a key not above the one before it panics; the steps that panic are left out. -/
def Step (p : Profile) (sha256 : Bytes → Hash) (scripts : Scripts) (s : Ledger) (event : LedgerEvent) (t : Ledger) :
    Prop :=
  match event with
  | .header header =>
    handleNewHeader p header s.toWatcher = (t.toWatcher, .ok ()) ∧ t.stores = s.stores ∧ t.written = s.written
  | .block block env => ∃ effects,
    handleNewBlock p sha256 scripts (env.reading s.stores block) (some (.block block)) ⟨s.toWatcher, []⟩ =
      (⟨t.toWatcher, effects⟩, .ok ()) ∧
    match effects.filterMap KeepupEffect.writtenBlock with
    | [] => t.stores = s.stores ∧ t.written = s.written
    | analyzed => StoresBatch p analyzed s.stores t.stores ∧ t.written = s.written ++ [block]

/-- The output that the input spends is one of the block itself or of a written block below it. -/
def Funded (s : Ledger) (repeated : Hash → Prop) (block : Block) (txin : TxIn) : Prop :=
  ∃ funder tx, (funder = block ∨ funder ∈ s.written ∧ ¬ repeated funder.header.hash ∧
      BuiltOn s.chainman.chain.parentOf block.header.hash funder.header.hash) ∧
    tx ∈ funder.txs ∧ tx.hash = txin.prevoutHash ∧ txin.prevoutIndex.toNat < tx.txouts.length

/-- What the consensus rules promise of a block: its hash fixes it, its transactions have hashes of their own,
none of them is in a block below it, no output is spent again, and each input spends an output of the block or
of one below it. -/
structure Lawful (s : Ledger) (repeated : Hash → Prop) (block : Block) : Prop where
  count : block.txs.length < 2 ^ 40
  readable : ∀ tx ∈ block.txs, tx.Readable
  nonzero : ∀ tx ∈ block.txs, tx.hash ≠ emptyHash
  distinct : (block.txs.map (·.hash)).Nodup
  same : ∀ earlier ∈ s.written, earlier.header.hash = block.header.hash → earlier = block
  apart : ∀ earlier ∈ s.written, BuiltOn s.chainman.chain.parentOf block.header.hash earlier.header.hash →
    earlier.Apart block
  funded : ∀ txin ∈ block.spends, s.Funded repeated block txin

/-- The condition of a step: a block that is at the front of the queue is lawful. -/
def Orderly (p : Profile) (repeated : Hash → Prop) (s : Ledger) : LedgerEvent → Prop
  | .header header => ∀ new, s.chainman.chain.newHeader p header = .ok (some new) →
      s.chainman.chain.topHeader.totalWork ≤ new.totalWork → p = .release → s.chainman.chain.Attached header
  | .block block _ => ∀ entry queue, s.queue = entry :: queue → block.header.hash = entry.hash →
      s.Lawful repeated block

end Ledger

end Bitlens

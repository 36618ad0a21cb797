import Bitlens.TxAnalysis
import Bitlens.WorkQueue
import Bitlens.StoredTx
import Bitlens.Payload

namespace Bitlens
open Lib

def segwitHeight : Nat := 481824

/-- An output that holds a witness commitment. -/
def TxOut.commits (txout : TxOut) : Bool :=
  decide (38 ≤ txout.script.length) && decide (txout.script.take 6 = [0x6a, 0x24, 0xaa, 0x21, 0xa9, 0xed])

/-- The last output of the first transaction that holds a commitment decides; a block
without one passes. -/
def verifyWitnessCommitment (sha256 : Bytes → Hash) (block : Block) : Outcome Unit := do
  let coinbaseTx ← Outcome.unwrap block.txs.head?
  match coinbaseTx.txouts.reverse.find? TxOut.commits with
  | none => pure ()
  | some txout =>
    let witnessData ← Outcome.orErr coinbaseTx.witnessData
    let coinbaseWitness ← Outcome.unwrap witnessData.head?
    Outcome.ensure (coinbaseWitness.length = 34 ∧ coinbaseWitness.take 2 = [0x01, 32])
    let witnessCommitment ← expect (getHash txout.script 6)
    let (witnessRoot, mutated) := intoRoot sha256 (emptyHash :: block.txs.tail.map (·.witnessHash)) false
    Outcome.ensure (mutated = false)
    Outcome.ensure (witnessCommitment = digestTwice sha256 (witnessRoot.1 ++ coinbaseWitness.drop 2))

/-! Applying a block. -/

def analyzedOverheadPerBlock : Nat := 4096 * 1024

/-- What a call of `handle_new_block` meets: the result of each lookup task's
`get_transaction_outputs`, where `none` is an error, a panic or a cancelled task, the
memory that the arena of the analysis gets, and the end of the front page update, which
may panic. -/
structure Surroundings where
  lookup : Nat → Option (List TxOut)
  analyzedArena : Arena
  capacity : analyzedArena.capacity = maxPacketSize + analyzedOverheadPerBlock
  updateFrontpage : FrontPageDataUpdateStrategy → Outcome Unit

def selfTxs (block : Block) : Hash → Option Tx :=
  block.txs.foldl (fun map tx => mapInsert map tx.hash tx) fun _ => none

/-- The inputs that `apply_block` needs an output for. -/
def Block.spends (block : Block) : List TxIn :=
  (block.txs.filter fun tx => !tx.isCoinbase).flatMap (·.txins)

/-- `pending_deps`, an output of the block itself or the index of a lookup task, and the
inputs of all tasks. -/
def pendingDeps (selfTxs : Hash → Option Tx) : List TxIn → List TxIn → Outcome (List (TxOut ⊕ Nat) × List TxIn)
  | [], depsHandles => .ok ([], depsHandles)
  | txin :: rest, depsHandles =>
    match selfTxs txin.prevoutHash with
    | some from_ => do
      let txout ← Outcome.unwrap from_.txouts[txin.prevoutIndex.toNat]?
      let (pending, handles) ← pendingDeps selfTxs rest depsHandles
      pure (.inl txout :: pending, handles)
    | none => do
      let (pending, handles) ← pendingDeps selfTxs rest (depsHandles ++ [txin])
      pure (.inr depsHandles.length :: pending, handles)

/-- What a lookup task returns; an index out of range panics in it. -/
def taskOutput (lookup : Nat → Option (List TxOut)) (task : Nat) (txin : TxIn) : Option TxOut :=
  (lookup task).bind fun txouts => txouts[txin.prevoutIndex.toNat]?

/-- Awaits the tasks in order; `none` when one of them failed. -/
def ownedDeps (lookup : Nat → Option (List TxOut)) : Nat → List TxIn → Option (List TxOut)
  | _, [] => some []
  | task, txin :: rest =>
    (taskOutput lookup task txin).bind fun txout => (ownedDeps lookup (task + 1) rest).map (txout :: ·)

def assembleDeps (owned : List TxOut) : List (TxOut ⊕ Nat) → Outcome (List TxOut)
  | [] => .ok []
  | .inl dep :: rest => do
    let deps ← assembleDeps owned rest
    pure (dep :: deps)
  | .inr ownedIdx :: rest => do
    let dep ← Outcome.unwrap owned[ownedIdx]?
    let deps ← assembleDeps owned rest
    pure (dep :: deps)

/-- How many dependencies a transaction consumes. -/
def Tx.txinCount (tx : Tx) : Nat :=
  if tx.isCoinbase then 0 else tx.txins.length

/-- The loop of `apply_block` over the transactions, with the fees, the volume and the
memory consumed so far. -/
def analyzeTxs (p : Profile) (scripts : Scripts) (arena : Arena) (header : BlockHeaderOwned) :
    List Tx → List TxOut → Nat → Nat → Nat → Outcome (List SerializedTx × Nat)
  | [], _, _, _, consumed => .ok ([], consumed)
  | tx :: txs, deps, feesTotal, volume, consumed => do
    let slice ← (if tx.txinCount ≤ deps.length then .ok (deps.take tx.txinCount) else .fault : Outcome (List TxOut))
    let (analyzed, consumed) ← analyzeTxIn p scripts arena header.hash tx slice header.timestamp.toUInt64 consumed
    let feesTotal ← p.add 64 feesTotal analyzed.fee.toNat
    let volume ← p.add 64 volume analyzed.txoutsSum.toNat
    let (rest, consumed) ← analyzeTxs p scripts arena header txs (deps.drop tx.txinCount) feesTotal volume consumed
    pure (analyzed :: rest, consumed)

/-- What the chain watcher does besides changing its queue and the chain: a call of
`write_analyzed_txs` or of `mark_as_downloaded` that returned, and a hash sent on
`BLOCK_APPLIED_BROADCAST`. -/
inductive KeepupEffect where
  | wroteAnalyzedTxs (analyzed : AnalyzedBlock)
  | markedAsDownloaded (hash : Hash)
  | announced (hash : Hash)

/-- The chain as a panic in `mark_as_downloaded` leaves it. -/
def Chainman.markedSoFar (blocks : List (Hash × Bytes)) (w : Chainman) : Chainman :=
  match w.markAll blocks with
  | none => w
  | some marked =>
    match marked.chain.knownHeaders marked.chain.topHeader.header.hash with
    | none => marked
    | some top => marked.setTop { marked.chain.topHeader with fetchedFull := top.fetchedFull }

/-- From the dependencies to the records, the coinbase script and the memory consumed; an
empty block or a first transaction without inputs panics. -/
def analyzeBlock (p : Profile) (scripts : Scripts) (arena : Arena) (block : Block) (deps : List TxOut) :
    Outcome (AnalyzedBlock × Bytes × Nat) := do
  let first ← Outcome.unwrap block.txs.head?
  let (analyzed, consumed) ← analyzeTxs p scripts arena block.header block.txs deps 0 0 0
  let coinbase ← Outcome.unwrap first.txins.head?
  let consumed ← arena.reserveArrays [(sliceLayout, 1)] consumed
  pure (⟨block.header.hash, analyzed⟩, coinbase.sigScript, consumed)

/-- `write_analyzed_txs` up to its writers, with the arena. -/
def arraysIn (p : Profile) (arena : Arena) (blocks : List AnalyzedBlock) (consumed : Nat) : Outcome (Arrays × Nat) := do
  let collected ← arrays p blocks
  let consumed ← arena.reserveArrays (writeAnalyzedTxsArrays blocks) consumed
  pure (collected, consumed)

/-- A failed lookup returns early, like a block that was applied. -/
def applyBlock (p : Profile) (scripts : Scripts) (env : Surroundings) (block : Block)
    (strategy : FrontPageDataUpdateStrategy) (w : Chainman) : Chainman × List KeepupEffect × Outcome Unit :=
  match pendingDeps (selfTxs block) block.spends [] with
  | .ok (pending, handles) =>
    match ownedDeps env.lookup 0 handles with
    | none => (w, [], .ok ())
    | some owned =>
      match assembleDeps owned pending >>= analyzeBlock p scripts env.analyzedArena block with
      | .ok (analyzed, coinbaseAscii, consumed) =>
        match arraysIn p env.analyzedArena [analyzed] consumed with
        | .ok _ =>
          match w.markAsDownloaded [(block.header.hash, coinbaseAscii)] with
          | .ok w' =>
            (w', [.wroteAnalyzedTxs analyzed, .markedAsDownloaded block.header.hash], env.updateFrontpage strategy)
          | _ => (w.markedSoFar [(block.header.hash, coinbaseAscii)], [.wroteAnalyzedTxs analyzed], .fault)
        | _ => (w, [], .fault)
      | _ => (w, [], .fault)
  | _ => (w, [], .fault)

/-- The chain watcher with what it has done. -/
structure Keepup extends Watcher where
  effects : List KeepupEffect

/-- The front entry leaves the queue before the block is applied. -/
def handleNewBlock (p : Profile) (sha256 : Bytes → Hash) (scripts : Scripts) (env : Surroundings)
    (payload : Option ReceivedPayload) (s : Keepup) : Keepup × Outcome Unit :=
  match payload with
  | some (.block block) =>
    match s.queue with
    | [] => (s, .ok ())
    | entry :: queue =>
      if block.header.hash ≠ entry.hash then (s, .ok ())
      else
        match (if segwitHeight ≤ entry.number then verifyWitnessCommitment sha256 block else .ok () : Outcome Unit) with
        | .err => (s, .ok ())
        | .fault => (s, .fault)
        | .ok _ =>
          match applyBlock p scripts env block entry.strategy s.chainman with
          | (w, done, .ok _) => (⟨⟨w, queue⟩, s.effects ++ done ++ [.announced entry.hash]⟩, .ok ())
          | (w, done, _) => (⟨⟨w, queue⟩, s.effects ++ done⟩, .fault)
  | _ => (s, .fault)

end Bitlens

import Bitlens.Pow
import Bitlens.Varint
import Bitlens.Lib.SstFile
import Bitlens.Lib.Run

namespace Bitlens
open Lib

/-- The record of an analysed transaction; `address_amends` are pairs of address
bytes with transaction hash and a delta. -/
structure SerializedTx where
  hash : Hash
  analyzedTx : Bytes
  txOuts : Bytes
  spentTxos : Option (List (ByteArr 36))
  addressAmends : Option (List (Bytes × Int64))
  fee : UInt64
  txoutsSum : UInt64
  sizeWus : UInt32

/-- One block of the batch with its analysed transactions. -/
structure AnalyzedBlock where
  hash : Hash
  txs : List SerializedTx

/-- `i64` addition: `dev` panics on overflow, `release` wraps. -/
def addI64 (p : Profile) (a b : Int64) : Outcome Int64 :=
  if (a + b).toInt = a.toInt + b.toInt ∨ p = .release then .ok (a + b) else .fault

def serializedTxhashes (block : AnalyzedBlock) : Bytes :=
  serializeVarint (UInt64.ofNat block.txs.length) ++ block.txs.flatMap fun tx =>
    tx.hash.1 ++ leBytes 8 tx.txoutsSum.toNat ++ leBytes 8 tx.fee.toNat ++ leBytes 4 tx.sizeWus.toNat

def blockSpends (block : AnalyzedBlock) : List (ByteArr 36 × Bytes) :=
  block.txs.flatMap fun tx => (tx.spentTxos.getD []).map fun txin => (txin, tx.hash.1 ++ block.hash.1)

/-- Merges neighbouring deltas of one key; `merged` is what the transaction has
pushed so far, last first. -/
def mergeAmends (p : Profile) : List (Bytes × Int64) → List (Bytes × Int64) → Outcome (List (Bytes × Int64))
  | merged, [] => .ok merged.reverse
  | [], amend :: rest => mergeAmends p [amend] rest
  | (lastKey, prevValue) :: merged, (key, delta) :: rest =>
    if lastKey = key then do
      let value ← addI64 p prevValue delta
      mergeAmends p ((key, value) :: merged) rest
    else mergeAmends p ((key, delta) :: (lastKey, prevValue) :: merged) rest

def blockAmends (p : Profile) (block : AnalyzedBlock) : Outcome (List (Bytes × Bytes)) :=
  Outcome.flatMapM (fun tx => do
    let merged ← mergeAmends p [] (tx.addressAmends.getD [])
    pure (merged.map fun (key, delta) => (key, block.hash.1 ++ leBytes 8 delta.toUInt64.toNat))) block.txs

/-- The arrays of `write_analyzed_txs`: pairs for the block, spend and amend
stores, and the transactions for the other two. -/
structure Arrays where
  blockTxs : List (Hash × Bytes)
  collapsed : List SerializedTx
  spends : List (ByteArr 36 × Bytes)
  amends : List (Bytes × Bytes)

/-- The arrays of a batch before they are sorted. -/
def arrays (p : Profile) (blocks : List AnalyzedBlock) : Outcome Arrays := do
  let amends ← Outcome.flatMapM (blockAmends p) blocks
  pure {
    blockTxs := blocks.map fun block => (block.hash, serializedTxhashes block)
    collapsed := blocks.flatMap (·.txs)
    spends := blocks.flatMap blockSpends
    amends := amends }

/-- `b` is a possible result of the four unstable sorts. -/
structure Sorts (a b : Arrays) : Prop where
  blockTxs : SortsBy Prod.fst a.blockTxs b.blockTxs
  collapsed : SortsBy SerializedTx.hash a.collapsed b.collapsed
  spends : SortsBy Prod.fst a.spends b.spends
  amends : SortsBy Prod.fst a.amends b.amends

/-- The five key-value stores. -/
structure Stores where
  txs : Hash → Option Bytes
  txouts : Hash → Option Bytes
  blockTxs : Hash → Option Bytes
  spends : ByteArr 36 → Option Bytes
  amends : Bytes → Option Bytes

/-- The pairs that the loops of `write_txs` and `write_txouts` hand to the writer:
a transaction with the hash of the one before it, at first the zero hash, is skipped. -/
def txEntries (value : SerializedTx → Bytes) (txs : List SerializedTx) : List (Hash × Bytes) :=
  (skipRepeats SerializedTx.hash emptyHash txs).map fun tx => (tx.hash, value tx)

def writeTxs (store : Hash → Option Bytes) (txs : List SerializedTx) : Hash → Option Bytes :=
  writeSst store (txEntries (·.analyzedTx) txs)

def writeTxouts (store : Hash → Option Bytes) (txs : List SerializedTx) : Hash → Option Bytes :=
  writeSst store (txEntries (·.txOuts) txs)

def writeBlockTxs (store : Hash → Option Bytes) (pairs : List (Hash × Bytes)) : Hash → Option Bytes :=
  writeSst store pairs

def writeTxspends (store : ByteArr 36 → Option Bytes) (pairs : List (ByteArr 36 × Bytes)) : ByteArr 36 → Option Bytes :=
  writeSst store pairs

def writeAddressAmends (store : Bytes → Option Bytes) (pairs : List (Bytes × Bytes)) : Bytes → Option Bytes :=
  writeSst store pairs

def Stores.write (s : Stores) (b : Arrays) : Stores where
  txs := writeTxs s.txs b.collapsed
  txouts := writeTxouts s.txouts b.collapsed
  blockTxs := writeBlockTxs s.blockTxs b.blockTxs
  spends := writeTxspends s.spends b.spends
  amends := writeAddressAmends s.amends b.amends

/-- One call of `write_analyzed_txs`. -/
def WriteAnalyzedTxs (p : Profile) (blocks : List AnalyzedBlock) (s t : Stores) : Prop :=
  ∃ a b, arrays p blocks = .ok a ∧ Sorts a b ∧ t = s.write b

/-- The keys handed to each of the five writers increase strictly. -/
structure Arrays.Increasing (b : Arrays) : Prop where
  txs : StrictKeys (txEntries (·.analyzedTx) b.collapsed)
  txouts : StrictKeys (txEntries (·.txOuts) b.collapsed)
  blockTxs : StrictKeys b.blockTxs
  spends : StrictKeys b.spends
  amends : StrictKeys b.amends

/-- No key of the block, spend and amend stores occurs twice, and transactions
with one hash have one record. -/
structure Arrays.Separate (a : Arrays) : Prop where
  blockTxs : (a.blockTxs.map Prod.fst).Nodup
  spends : (a.spends.map Prod.fst).Nodup
  amends : (a.amends.map Prod.fst).Nodup
  records : ∀ x ∈ a.collapsed, ∀ y ∈ a.collapsed, x.hash = y.hash → x.hash ≠ emptyHash →
    x.analyzedTx = y.analyzedTx ∧ x.txOuts = y.txOuts

end Bitlens

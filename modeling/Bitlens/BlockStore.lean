import Bitlens.Chain
import Bitlens.Decoders
import Bitlens.Encoders
import Bitlens.WriteAnalyzed

namespace Bitlens
open Lib

/-! Analysis of a transaction. -/

/-- What `analyze_tx` gets from the scripts: the cost of the signature operations and
the balance changes of the addresses, for a timestamp. Both may panic. -/
structure Scripts where
  getTransactionSigopCost : Tx → List TxOut → Outcome UInt32
  serializeAddressAmends : Tx → List TxOut → UInt64 → Outcome (Option (List (Bytes × Int64)))

/-- `sum` of an iterator over `u64`. -/
def sumU64 (p : Profile) : List UInt64 → Outcome Nat
  | [] => .ok 0
  | value :: rest => do
    let total ← sumU64 p rest
    p.add 64 value.toNat total

def TxIn.isEmpty (txin : TxIn) : Bool :=
  txin.prevoutHash = emptyHash && txin.prevoutIndex = 0xFFFFFFFF

def Tx.isCoinbase (tx : Tx) : Bool :=
  match tx.txins with
  | [txin] => txin.isEmpty
  | _ => false

def calculateFee (p : Profile) (tx : Tx) (dependencies : List TxOut) : Outcome Nat := do
  let totalIn ← sumU64 p (dependencies.map (·.value))
  let totalOut ← sumU64 p (tx.txouts.map (·.value))
  p.sub 64 totalIn totalOut

def lengthOf (bytes : Bytes) : Nat :=
  lengthVarint (UInt64.ofNat bytes.length) + bytes.length

def calculateTxSizeWus (tx : Tx) : Nat :=
  16 + 16 + 4 * lengthVarint (UInt64.ofNat tx.txins.length) +
    (tx.txins.map fun txin => (32 + 4 + 4 + lengthOf txin.sigScript) * 4).sum +
    4 * lengthVarint (UInt64.ofNat tx.txouts.length) + (tx.txouts.map fun txout => (8 + lengthOf txout.script) * 4).sum +
    match tx.witnessData with
    | some witnessData => 2 + (witnessData.map List.length).sum
    | none => 0

/-- The value stored for a transaction. The array is allocated with room for a block
number that is not written, so eight zero bytes end it. -/
def serializeAnalyzedTx (fee txoutsSum : UInt64) (sizeWus sigops : UInt32) (blockHash : Hash) (tx : Tx)
    (dependencies : List TxOut) : Bytes :=
  leBytes 8 fee.toNat ++ leBytes 8 txoutsSum.toNat ++ leBytes 4 sizeWus.toNat ++ leBytes 4 sigops.toNat ++ blockHash.1 ++
    serializeWithoutTxouts tx ++ serializeArray (fun txout => leBytes 8 txout.value.toNat) dependencies ++
    List.replicate 8 0

def serializeSpends (tx : Tx) : List (ByteArr 36) :=
  tx.txins.map fun txin =>
    ⟨txin.prevoutHash.1 ++ leBytes 4 txin.prevoutIndex.toNat, by
      rw [List.length_append, txin.prevoutHash.2, length_leBytes]⟩

def analyzeTx (p : Profile) (scripts : Scripts) (blockHash : Hash) (tx : Tx) (dependencies : List TxOut)
    (timestamp : UInt64) : Outcome SerializedTx := do
  let fee ← (if tx.isCoinbase then .ok 0 else calculateFee p tx dependencies : Outcome Nat)
  let txoutsSum ← sumU64 p (tx.txouts.map (·.value))
  let sizeWus := UInt32.ofNat (calculateTxSizeWus tx)
  let sigops ← scripts.getTransactionSigopCost tx dependencies
  let addressAmends ← scripts.serializeAddressAmends tx dependencies timestamp
  pure {
    hash := tx.hash
    analyzedTx := serializeAnalyzedTx (UInt64.ofNat fee) (UInt64.ofNat txoutsSum) sizeWus sigops blockHash tx dependencies
    txOuts := serializeArray serializeTxOut tx.txouts
    spentTxos := if tx.isCoinbase then none else some (serializeSpends tx)
    addressAmends := addressAmends
    fee := UInt64.ofNat fee
    txoutsSum := UInt64.ofNat txoutsSum
    sizeWus := sizeWus }

/-! Reading a transaction back. -/

structure AnalyzedTx where
  fee : UInt64
  txoutsSum : UInt64
  sizeWus : UInt32
  sigops : UInt32
  blockHash : Hash
  tx : Tx
  txinValues : List UInt64

/-- `deserialize_array_owned`. -/
def deserializeArrayOwned {α : Type} (item : Bytes → Outcome (α × Nat)) (buffer : Bytes) : Outcome (List α × Nat) := do
  let (count, offset) ← deserializeVarint buffer
  deserializeItems item buffer count.toNat offset

/-- `TxOwned::deserialize_without_txouts`. -/
def deserializeWithoutTxouts (buffer : Bytes) (hash : Hash) : Outcome (Tx × Nat) := do
  let version ← getU32Le buffer 0
  let marker ← orBail (getRange buffer 4 6)
  let hasWitnessData := decide (marker = [0x00, 0x01])
  let offset := if hasWitnessData then 6 else 4
  let rest ← withOffset buffer offset
  let (txins, offsetDelta) ← deserializeArrayOwned deserializeTxIn rest
  let offset ← add offset offsetDelta
  ensure (txins.isEmpty = false)
  let (witnesses, offset) ← deserializeWitnesses hasWitnessData buffer txins.length offset
  let locktime ← getU32Le buffer offset
  let consumed ← add offset 4
  pure (⟨version, locktime, txins, [], witnesses, hash, emptyHash⟩, consumed)

/-- `expect` of a result: an error becomes a panic. -/
def expect {α : Type} : Outcome α → Outcome α
  | .ok a => .ok a
  | .err | .fault => .fault

def deserializeU64 (buffer : Bytes) : Outcome (UInt64 × Nat) := do
  let value ← getU64Le buffer 0
  pure (value, 8)

def deserializeAnalyzedTx (data : Bytes) (hash : Hash) : Outcome AnalyzedTx := do
  let fee ← expect (getU64Le data 0)
  let txoutsSum ← expect (getU64Le data 8)
  let sizeWus ← expect (getU32Le data 16)
  let sigops ← expect (getU32Le data 20)
  let blockHash ← expect (getHash data 24)
  let rest ← expect (withOffset data 56)
  let (tx, consumed) ← expect (deserializeWithoutTxouts rest hash)
  let offset ← Profile.dev.add 64 56 consumed
  let rest ← expect (withOffset data offset)
  let (txinValues, _) ← expect (deserializeArrayOwned deserializeU64 rest)
  pure ⟨fee, txoutsSum, sizeWus, sigops, blockHash, tx, txinValues⟩

/-- A spawned task that panics is an error for the one that awaits it. -/
def spawned {α : Type} : Outcome α → Outcome α
  | .ok a => .ok a
  | .err | .fault => .err

def getAnalyzedTx (store : Hash → Option Bytes) (hash : Hash) : Outcome AnalyzedTx :=
  match store hash with
  | none => .err
  | some data => if data.isEmpty then .err else spawned (deserializeAnalyzedTx data hash)

structure BlockTxEntry where
  hash : Hash
  valueSats : UInt64
  feeSats : UInt64
  sizeWus : UInt32

/-- The loop of `get_block_tx_entries`; its slices and `unwrap`s panic. -/
def readBlockTxEntries (data : Bytes) : Nat → Nat → Outcome (List BlockTxEntry)
  | 0, _ => .ok []
  | count + 1, continueAt => do
    let bytes ← Outcome.unwrap (getRange data continueAt data.length)
    let hash ← expect (getHash bytes 0)
    let valueSats ← expect (getU64Le bytes 32)
    let feeSats ← expect (getU64Le bytes 40)
    let sizeWus ← expect (getU32Le bytes 48)
    let continueAt ← Profile.dev.add 64 continueAt 52
    let rest ← readBlockTxEntries data count continueAt
    pure (⟨hash, valueSats, feeSats, sizeWus⟩ :: rest)

def getBlockTxEntries (store : Hash → Option Bytes) (hash : Hash) : Outcome (List BlockTxEntry) :=
  match store hash with
  | none => .err
  | some data =>
    if data.isEmpty then .err
    else spawned do
      let (count, continueAt) ← deserializeVarint data
      readBlockTxEntries data count.toNat continueAt

def getAnalyzedTxs (store : Hash → Option Bytes) : List BlockTxEntry → Outcome (List AnalyzedTx)
  | [] => .ok []
  | entry :: rest => do
    let tx ← getAnalyzedTx store entry.hash
    let txs ← getAnalyzedTxs store rest
    pure (tx :: txs)

/-- `get_block`. -/
def getBlock (c : Chain) (stores : Stores) (hash : Hash) (includeWitnessData : Bool) : Outcome Block := do
  let header ← Outcome.orErr (c.knownHeaders hash)
  let entries ← getBlockTxEntries stores.blockTxs hash
  let txsResult ← getAnalyzedTxs stores.txs entries
  pure {
    header := header.header
    txs := txsResult.map fun v => if includeWitnessData then v.tx else { v.tx with witnessData := none } }

end Bitlens

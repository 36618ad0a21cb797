import Bitlens.Packets
import Bitlens.Varint

namespace Bitlens
open Lib

def serializeVarstr (v : Bytes) : Bytes :=
  serializeVarint (UInt64.ofNat v.length) ++ v

def serializeArray {α : Type} (item : α → Bytes) (array : List α) : Bytes :=
  serializeVarint (UInt64.ofNat array.length) ++ array.flatMap item

def serializeTxIn (txin : TxIn) : Bytes :=
  txin.prevoutHash.1 ++ leBytes 4 txin.prevoutIndex.toNat ++ serializeVarstr txin.sigScript ++ leBytes 4 txin.sequence.toNat

def serializeTxOut (txout : TxOut) : Bytes :=
  leBytes 8 txout.value.toNat ++ serializeVarstr txout.script

/-- The bytes `0x0001` that announce witness data. -/
def witnessMarker (tx : Tx) : Bytes :=
  if tx.witnessData.isSome then [0x00, 0x01] else []

/-- The witnesses are kept as they were read. -/
def serializeWitnesses (tx : Tx) : Bytes :=
  (tx.witnessData.getD []).flatten

/-- `TxOwned::serialize`. -/
def serializeTx (tx : Tx) : Bytes :=
  leBytes 4 tx.version.toNat ++ witnessMarker tx ++ serializeArray serializeTxIn tx.txins ++
    serializeArray serializeTxOut tx.txouts ++ serializeWitnesses tx ++ leBytes 4 tx.locktime.toNat

def Tx.withoutWitness (tx : Tx) : Tx :=
  { tx with witnessData := none }

/-- `TxRef::serialize_without_txouts`. -/
def serializeWithoutTxouts (tx : Tx) : Bytes :=
  leBytes 4 tx.version.toNat ++ witnessMarker tx ++ serializeArray serializeTxIn tx.txins ++
    serializeWitnesses tx ++ leBytes 4 tx.locktime.toNat

def serializeBlockHeader (header : BlockHeaderOwned) : Bytes :=
  leBytes 4 header.version.toNat ++ header.parent.1 ++ header.merkleRoot.1 ++ leBytes 4 header.timestamp.toNat ++
    leBytes 4 header.bits.toNat ++ leBytes 4 header.nonce.toNat ++ serializeVarint header.txsCount

/-- `BlockOwned::serialize`: the number of transactions is the header's. -/
def serializeBlock (block : Block) : Bytes :=
  serializeBlockHeader block.header ++ block.txs.flatMap serializeTx

end Bitlens

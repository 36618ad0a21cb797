import Bitlens.Pow

namespace Bitlens
open Lib

structure BlockHeaderOwned where
  version : UInt32
  parent : Hash
  merkleRoot : Hash
  timestamp : UInt32
  bits : UInt32
  nonce : UInt32
  txsCount : UInt64
  hash : Hash
  deriving DecidableEq

structure TxIn where
  prevoutHash : Hash
  prevoutIndex : UInt32
  sequence : UInt32
  sigScript : Bytes
  deriving DecidableEq

structure TxOut where
  value : UInt64
  script : Bytes
  deriving DecidableEq

/-- `TxOwned` and `TxBorrowed`; the two hashes are computed when it is deserialized. -/
structure Tx where
  version : UInt32
  locktime : UInt32
  txins : List TxIn
  txouts : List TxOut
  witnessData : Option (List Bytes)
  hash : Hash
  witnessHash : Hash
  deriving DecidableEq

structure Block where
  header : BlockHeaderOwned
  txs : List Tx
  deriving DecidableEq

end Bitlens

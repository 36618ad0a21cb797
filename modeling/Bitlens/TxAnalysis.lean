import Mathlib.Data.List.Sort
import Bitlens.Addresses
import Bitlens.Script

namespace Bitlens
open Lib

/-- What the functions of the source do with overflow checks; of the results that the
unstable sort may have, the one of an insertion sort. -/
def checkedScripts : Scripts where
  getTransactionSigopCost tx dependencies := do
    let cost ← getTransactionSigopCost tx dependencies (scriptFlags tx)
    pure (UInt32.ofNat cost)
  serializeAddressAmends tx dependencies timestamp :=
    if amendsCount tx dependencies = 0 then .ok none
    else do
      let amends ← addressAmends .dev tx dependencies timestamp
      -- a push beyond the counted capacity panics
      if amends.length ≤ amendsCount tx dependencies then
        pure (some (amends.insertionSort fun a b => a.1 ≤ b.1))
      else .fault

theorem sortsBy_insertionSort (amends : List (Bytes × Int64)) :
    SortsBy Prod.fst amends (amends.insertionSort fun a b => a.1 ≤ b.1) := by
  have total : Std.Total fun a b : Bytes × Int64 => a.1 ≤ b.1 := ⟨fun a b => le_total a.1 b.1⟩
  have trans : IsTrans (Bytes × Int64) fun a b => a.1 ≤ b.1 := ⟨fun _ _ _ => le_trans⟩
  exact ⟨List.perm_insertionSort _ _, List.pairwise_insertionSort _ _⟩

/-- The amends are a result of `serialize_address_amends`. -/
theorem checkedScripts_serializes {tx : Tx} {dependencies : List TxOut} {timestamp : UInt64}
    {result : Option (List (Bytes × Int64))}
    (made : checkedScripts.serializeAddressAmends tx dependencies timestamp = .ok result) :
    SerializesAddressAmends .dev tx dependencies timestamp result := by
  simp only [checkedScripts] at made
  unfold SerializesAddressAmends
  split at made
  · next nothing =>
    cases made
    rw [if_pos nothing]
  · next something =>
    obtain ⟨amends, atAmends, made⟩ := Outcome.bind_eq_ok.mp made
    split at made
    · next room =>
      cases made
      rw [if_neg something]
      exact ⟨amends, _, atAmends, room, sortsBy_insertionSort amends, rfl⟩
    · cases made

/-! What the analysis and the writing of blocks take from their arena, as the layout of an
element and a count, in order. -/

def u8Layout : Layout := ⟨1, 1⟩
def refLayout : Layout := ⟨8, 8⟩

def TxIn.serializedLength (txin : TxIn) : Nat :=
  40 + lengthVarint (UInt64.ofNat txin.sigScript.length) + txin.sigScript.length

def serializedWithoutTxoutsSize (tx : Tx) : Nat :=
  4 + (if tx.witnessData.isSome then 2 else 0) + lengthVarint (UInt64.ofNat tx.txins.length) +
    (tx.txins.map TxIn.serializedLength).sum + ((tx.witnessData.getD []).map List.length).sum + 4

def TxOut.serializedLength (txout : TxOut) : Nat :=
  8 + lengthVarint (UInt64.ofNat txout.script.length) + txout.script.length

/-- The arrays of `analyze_tx`: the record, the outputs, the keys of the spends, and the
amends with their keys. -/
def analyzeTxArrays (tx : Tx) (dependencies : List TxOut) (timestamp : UInt64) : List (Layout × Nat) :=
  let txinValuesSize := lengthVarint (UInt64.ofNat dependencies.length) + dependencies.length * 8
  let txoutsSize := lengthVarint (UInt64.ofNat tx.txouts.length) + (tx.txouts.map TxOut.serializedLength).sum
  [(u8Layout, serializedWithoutTxoutsSize tx + 8 + 8 + 4 + 4 + 8 + 32 + txinValuesSize), (u8Layout, txoutsSize)] ++
    (if tx.isCoinbase then [] else (refLayout, tx.txins.length) :: tx.txins.map fun _ => (u8Layout, 36)) ++
    (if amendsCount tx dependencies = 0 then []
    else (⟨24, 8⟩, amendsCount tx dependencies) :: (dependencies ++ tx.txouts).filterMap fun txout =>
      (getAddressFromScriptCopyIntoArenaWithTxhash txout.script tx.hash timestamp).map fun key => (u8Layout, key.length))

/-- The arrays of `write_analyzed_txs`, given the numbers of transactions of the blocks and
those of all spends and amends: the lists of the blocks, and an array for each of the
other stores. -/
def writeArrays (txsCounts : List Nat) (spendsCount amendsCount : Nat) : List (Layout × Nat) :=
  [(⟨48, 8⟩, txsCounts.length)] ++
    txsCounts.map (fun count => (u8Layout, lengthVarint (UInt64.ofNat count) + 52 * count)) ++
    [(refLayout, txsCounts.sum)] ++ (if spendsCount = 0 then [] else [(⟨100, 1⟩, spendsCount)]) ++
    (if amendsCount = 0 then [] else [(⟨56, 8⟩, amendsCount)])

def AnalyzedBlock.spendsCount (block : AnalyzedBlock) : Nat :=
  (block.txs.map fun tx => (tx.spentTxos.getD []).length).sum

def AnalyzedBlock.amendsCount (block : AnalyzedBlock) : Nat :=
  (block.txs.map fun tx => (tx.addressAmends.getD []).length).sum

def writeAnalyzedTxsArrays (blocks : List AnalyzedBlock) : List (Layout × Nat) :=
  writeArrays (blocks.map (·.txs.length)) (blocks.map AnalyzedBlock.spendsCount).sum (blocks.map AnalyzedBlock.amendsCount).sum

/-- `analyze_tx` with its arena. Whether an array does not fit or something else panics
makes no difference to the caller. -/
def analyzeTxIn (p : Profile) (scripts : Scripts) (arena : Arena) (blockHash : Hash) (tx : Tx) (dependencies : List TxOut)
    (timestamp : UInt64) (consumed : Nat) : Outcome (SerializedTx × Nat) := do
  let analyzed ← analyzeTx p scripts blockHash tx dependencies timestamp
  let consumed ← arena.reserveArrays (analyzeTxArrays tx dependencies timestamp) consumed
  pure (analyzed, consumed)

end Bitlens

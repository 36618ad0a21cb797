import Bitlens.AddressIndex
import Bitlens.Lib.Buffer
import Bitlens.SigopCost
import Bitlens.TxWire

namespace Bitlens
open Lib

/-! The writers, with the buffers that they size in advance. -/

/-- `serialize_varint_into_slice` into the part of the buffer from a position on. -/
def serializeVarintIntoSlice (v : UInt64) (buffer : Bytes) (position : Nat) : Outcome (Bytes × Nat) := do
  let buffer ← writeAt buffer position (serializeVarint v)
  pure (buffer, lengthVarint v)

/-- The values of the dependencies, each behind the one before it. -/
def writeValues (start : Nat) : List TxOut → Nat → Bytes → Outcome Bytes
  | [], _, buffer => .ok buffer
  | dep :: rest, index, buffer => do
    let buffer ← writeAt buffer (start + 8 * index) (leBytes 8 dep.value.toNat)
    writeValues start rest (index + 1) buffer

/-- The array `analyzed_tx`. -/
def writeAnalyzedTx (fee txoutsSum : UInt64) (sizeWus sigops : UInt32) (blockHash : Hash) (tx : Tx)
    (dependencies : List TxOut) : Outcome Bytes := do
  let txinValuesSize := lengthVarint (UInt64.ofNat dependencies.length) + dependencies.length * 8
  let serializedTxSize := serializedWithoutTxoutsSize tx
  let analyzedTx := List.replicate (serializedTxSize + 8 + 8 + 4 + 4 + 8 + 32 + txinValuesSize) 0
  let analyzedTx ← writeAt analyzedTx 0 (leBytes 8 fee.toNat)
  let analyzedTx ← writeAt analyzedTx 8 (leBytes 8 txoutsSum.toNat)
  let analyzedTx ← writeAt analyzedTx 16 (leBytes 4 sizeWus.toNat)
  let analyzedTx ← writeAt analyzedTx 20 (leBytes 4 sigops.toNat)
  let analyzedTx ← writeAt analyzedTx 24 blockHash.1
  -- `put` after `put`, none of which may pass the end
  let analyzedTx ← writeAt analyzedTx 56 (serializeWithoutTxouts tx)
  let (analyzedTx, sizeOffset) ←
    serializeVarintIntoSlice (UInt64.ofNat dependencies.length) analyzedTx (56 + serializedTxSize)
  writeValues (56 + serializedTxSize + sizeOffset) dependencies 0 analyzedTx

/-- `flat_serialize` into the part of the buffer from a position on. -/
def TxOut.flatSerialize (txout : TxOut) (buffer : Bytes) (position : Nat) : Outcome (Bytes × Nat) := do
  let buffer ← writeAt buffer position (leBytes 8 txout.value.toNat)
  let (buffer, size) ← serializeVarintIntoSlice (UInt64.ofNat txout.script.length) buffer (position + 8)
  let startOfScript := 8 + size
  let buffer ← writeAt buffer (position + startOfScript) txout.script
  pure (buffer, startOfScript + txout.script.length)

/-- The loop of `serialize_txouts`. -/
def flatSerializeTxouts : List TxOut → Nat → Bytes → Outcome (Bytes × Nat)
  | [], offset, buffer => .ok (buffer, offset)
  | txout :: rest, offset, buffer => do
    let (buffer, written) ← txout.flatSerialize buffer offset
    flatSerializeTxouts rest (offset + written) buffer

def serializeTxouts (p : Profile) (tx : Tx) : Outcome Bytes := do
  let size := lengthVarint (UInt64.ofNat tx.txouts.length) + (tx.txouts.map TxOut.serializedLength).sum
  let (result, offset) ← serializeVarintIntoSlice (UInt64.ofNat tx.txouts.length) (List.replicate size 0) 0
  let (result, offset) ← flatSerializeTxouts tx.txouts offset result
  -- `debug_assert_eq!`
  if p = .dev ∧ size ≠ offset then .fault else pure result

/-- The loop over the transactions of a block in `write_analyzed_txs`. -/
def writeTxhashes : List SerializedTx → Nat → Bytes → Outcome Bytes
  | [], _, serialized => .ok serialized
  | transaction :: rest, offset, serialized => do
    let serialized ← writeAt serialized offset transaction.hash.1
    let serialized ← writeAt serialized (offset + 32) (leBytes 8 transaction.txoutsSum.toNat)
    let serialized ← writeAt serialized (offset + 40) (leBytes 8 transaction.fee.toNat)
    let serialized ← writeAt serialized (offset + 48) (leBytes 4 transaction.sizeWus.toNat)
    writeTxhashes rest (offset + 52) serialized

/-- The record of a block in `write_analyzed_txs`. -/
def writeBlockRecord (transactions : List SerializedTx) : Outcome Bytes := do
  let offset := lengthVarint (UInt64.ofNat transactions.length)
  let serialized := List.replicate (offset + 52 * transactions.length) 0
  let (serialized, _) ← serializeVarintIntoSlice (UInt64.ofNat transactions.length) serialized 0
  writeTxhashes transactions offset serialized

/-- `analyze_tx` up to the address amends, for what `get_transaction_sigop_cost` does. -/
def analyzeTxWith (p : Profile) (getTransactionSigopCost : Tx → List TxOut → UInt32 → Outcome Nat) (blockHash : Hash)
    (tx : Tx) (dependencies : List TxOut) (addressAmends : Option (List (Bytes × Int64))) : Outcome SerializedTx := do
  let fee ← (if tx.isCoinbase then .ok 0 else calculateFee p tx dependencies : Outcome Nat)
  let txoutsSum ← sumU64 p (tx.txouts.map (·.value))
  let sizeWus := UInt32.ofNat (calculateTxSizeWus tx)
  let flags := if tx.witnessData.isSome then scriptVerifyP2sh ||| scriptVerifyWitness else scriptVerifyP2sh
  let sigops ← getTransactionSigopCost tx dependencies flags
  let analyzedTx ← writeAnalyzedTx (UInt64.ofNat fee) (UInt64.ofNat txoutsSum) sizeWus (UInt32.ofNat sigops) blockHash tx
    dependencies
  let txOuts ← serializeTxouts p tx
  pure {
    hash := tx.hash
    analyzedTx := analyzedTx
    txOuts := txOuts
    spentTxos := if tx.isCoinbase then none else some (serializeSpends tx)
    addressAmends := addressAmends
    fee := UInt64.ofNat fee
    txoutsSum := UInt64.ofNat txoutsSum
    sizeWus := sizeWus }

variable {buffer front : Bytes} {position room : Nat} {p : Profile}

/-! Every write is in range, and the buffers end up as the encoders would have them. -/

theorem serializeVarintIntoSlice_filled (filled : Filled buffer front room) (start : front.length = position) (v : UInt64)
    (fits : (serializeVarint v).length ≤ room) :
    ∃ next, serializeVarintIntoSlice v buffer position = .ok (next, (serializeVarint v).length) ∧
      Filled next (front ++ serializeVarint v) (room - (serializeVarint v).length) := by
  obtain ⟨next, written, filled⟩ := filled.writeAt start _ fits
  refine ⟨next, ?_, filled⟩
  rw [serializeVarintIntoSlice, written, Outcome.ok_bind, length_serializeVarint]
  rfl

theorem length_serializeWithoutTxouts_eq (tx : Tx) :
    (serializeWithoutTxouts tx).length = serializedWithoutTxoutsSize tx := by
  have txins : (tx.txins.flatMap serializeTxIn).length = (tx.txins.map TxIn.serializedLength).sum := by
    rw [List.length_flatMap]
    refine congrArg List.sum (List.map_congr_left fun txin _ => ?_)
    rw [length_serializeTxIn, serializeVarstr, List.length_append, length_serializeVarint, TxIn.serializedLength,
      Nat.add_assoc]
  have marker : (witnessMarker tx).length = if tx.witnessData.isSome then 2 else 0 := by
    unfold witnessMarker
    split <;> rfl
  have witnesses : (serializeWitnesses tx).length = ((tx.witnessData.getD []).map List.length).sum := by
    rw [serializeWitnesses, List.length_flatten]
  rw [length_serializeWithoutTxouts, serializeArray, List.length_append, length_serializeVarint, txins, marker, witnesses,
    serializedWithoutTxoutsSize]
  omega

theorem writeValues_filled {start index : Nat} {dependencies : List TxOut} (filled : Filled buffer front room)
    (behind : front.length = start + 8 * index) (fits : 8 * dependencies.length ≤ room) :
    ∃ next, writeValues start dependencies index buffer = .ok next ∧
      Filled next (front ++ dependencies.flatMap fun txout => leBytes 8 txout.value.toNat) (room - 8 * dependencies.length) := by
  induction dependencies generalizing buffer front room index with
  | nil =>
    rw [List.flatMap_nil, List.append_nil]
    exact ⟨buffer, rfl, filled⟩
  | cons dep rest ih =>
    rw [List.length_cons] at fits ⊢
    obtain ⟨next, written, filled⟩ := filled.writeAt behind (leBytes 8 dep.value.toNat) (by rw [length_leBytes]; omega)
    rw [length_leBytes] at filled
    obtain ⟨last, later, filled⟩ := @ih next _ _ (index + 1) filled
      (by rw [List.length_append, length_leBytes, behind]; omega) (by omega)
    refine ⟨last, ?_, ?_⟩
    · rw [writeValues, written]
      exact later
    · rw [List.flatMap_cons, ← List.append_assoc, show room - 8 * (rest.length + 1) = room - 8 - 8 * rest.length by omega]
      exact filled

/-- The array is written without a panic, and is the one of the encoder. -/
theorem writeAnalyzedTx_eq (fee txoutsSum : UInt64) (sizeWus sigops : UInt32) (blockHash : Hash) (tx : Tx)
    (dependencies : List TxOut) : writeAnalyzedTx fee txoutsSum sizeWus sigops blockHash tx dependencies =
      .ok (serializeAnalyzedTx fee txoutsSum sizeWus sigops blockHash tx dependencies) := by
  have txLength := length_serializeWithoutTxouts_eq tx
  have countLength := length_serializeVarint (UInt64.ofNat dependencies.length)
  rw [writeAnalyzedTx]
  dsimp only
  generalize serializedWithoutTxoutsSize tx = size at txLength
  rw [← countLength]
  have filled := filled_replicate (size + 8 + 8 + 4 + 4 + 8 + 32 +
    ((serializeVarint (UInt64.ofNat dependencies.length)).length + dependencies.length * 8))
  obtain ⟨_, written, filled⟩ := filled.writeAt (show _ = 0 from rfl) (leBytes 8 fee.toNat) (by rw [length_leBytes]; omega)
  rw [written, Outcome.ok_bind]
  obtain ⟨_, written, filled⟩ := filled.writeAt (show _ = 8 by simp) (leBytes 8 txoutsSum.toNat)
    (by simp only [length_leBytes]; omega)
  rw [written, Outcome.ok_bind]
  obtain ⟨_, written, filled⟩ := filled.writeAt (show _ = 16 by simp) (leBytes 4 sizeWus.toNat)
    (by simp only [length_leBytes]; omega)
  rw [written, Outcome.ok_bind]
  obtain ⟨_, written, filled⟩ := filled.writeAt (show _ = 20 by simp) (leBytes 4 sigops.toNat)
    (by simp only [length_leBytes]; omega)
  rw [written, Outcome.ok_bind]
  obtain ⟨_, written, filled⟩ := filled.writeAt (show _ = 24 by simp) blockHash.1
    (by simp only [length_leBytes, blockHash.2]; omega)
  rw [written, Outcome.ok_bind]
  obtain ⟨_, written, filled⟩ := filled.writeAt (show _ = 56 by simp [blockHash.2]) (serializeWithoutTxouts tx)
    (by simp only [length_leBytes, blockHash.2, txLength]; omega)
  rw [written, Outcome.ok_bind]
  obtain ⟨_, written, filled⟩ := serializeVarintIntoSlice_filled filled
    (show _ = 56 + size by
      simp only [List.length_append, List.length_nil, length_leBytes, blockHash.2, txLength]) (UInt64.ofNat dependencies.length)
    (by simp only [length_leBytes, blockHash.2, txLength]; omega)
  rw [written, Outcome.ok_bind]
  obtain ⟨last, written, filled⟩ := @writeValues_filled _ _ _
    (56 + size + (serializeVarint (UInt64.ofNat dependencies.length)).length) 0 dependencies filled
    (by simp only [List.length_append, List.length_nil, length_leBytes, blockHash.2, txLength]; omega)
    (by simp only [length_leBytes, blockHash.2, txLength]; omega)
  refine written.trans (congrArg Outcome.ok ?_)
  have unwritten := filled.of_eq (show _ = 8 by
    simp only [length_leBytes, blockHash.2, txLength]
    omega)
  rw [unwritten.shape]
  simp only [serializeAnalyzedTx, serializeArray, List.append_assoc, List.nil_append]

theorem length_serializeTxOut (txout : TxOut) : (serializeTxOut txout).length = txout.serializedLength := by
  rw [serializeTxOut, List.length_append, length_leBytes, serializeVarstr, List.length_append, length_serializeVarint,
    TxOut.serializedLength, Nat.add_assoc]

theorem flatSerialize_filled (filled : Filled buffer front room) (start : front.length = position) (txout : TxOut)
    (fits : (serializeTxOut txout).length ≤ room) :
    ∃ next, txout.flatSerialize buffer position = .ok (next, (serializeTxOut txout).length) ∧
      Filled next (front ++ serializeTxOut txout) (room - (serializeTxOut txout).length) := by
  have length : (serializeTxOut txout).length =
      8 + ((serializeVarint (UInt64.ofNat txout.script.length)).length + txout.script.length) := by
    rw [serializeTxOut, List.length_append, length_leBytes, serializeVarstr, List.length_append]
  obtain ⟨_, value, filled⟩ := filled.writeAt start (leBytes 8 txout.value.toNat) (by rw [length_leBytes]; omega)
  rw [length_leBytes] at filled
  obtain ⟨_, size, filled⟩ := serializeVarintIntoSlice_filled filled
    (show _ = position + 8 by rw [List.length_append, length_leBytes, start]) (UInt64.ofNat txout.script.length) (by omega)
  obtain ⟨next, script, filled⟩ := filled.writeAt
    (show _ = position + (8 + (serializeVarint (UInt64.ofNat txout.script.length)).length) by
      rw [List.length_append, List.length_append, length_leBytes, start, Nat.add_assoc]) txout.script (by omega)
  refine ⟨next, ?_, ?_⟩
  · rw [TxOut.flatSerialize, value, Outcome.ok_bind, size, Outcome.ok_bind]
    dsimp only
    rw [script, Outcome.ok_bind, length, ← Nat.add_assoc]
    rfl
  · rw [length, serializeTxOut, serializeVarstr, ← List.append_assoc, ← List.append_assoc, ← Nat.sub_sub, ← Nat.sub_sub]
    exact filled

theorem flatSerializeTxouts_filled {txouts : List TxOut} (filled : Filled buffer front room)
    (start : front.length = position) (fits : (txouts.flatMap serializeTxOut).length ≤ room) :
    ∃ next, flatSerializeTxouts txouts position buffer = .ok (next, position + (txouts.flatMap serializeTxOut).length) ∧
      Filled next (front ++ txouts.flatMap serializeTxOut) (room - (txouts.flatMap serializeTxOut).length) := by
  induction txouts generalizing buffer front room position with
  | nil =>
    rw [List.flatMap_nil, List.append_nil]
    exact ⟨buffer, rfl, filled⟩
  | cons txout rest ih =>
    rw [List.flatMap_cons, List.length_append] at fits ⊢
    obtain ⟨_, written, filled⟩ := flatSerialize_filled filled start txout (by omega)
    obtain ⟨last, later, filled⟩ := ih filled
      (show _ = position + (serializeTxOut txout).length by rw [List.length_append, start]) (by omega)
    refine ⟨last, ?_, ?_⟩
    · rw [flatSerializeTxouts, written, Outcome.ok_bind]
      dsimp only
      rw [later, Nat.add_assoc]
    · rw [← List.append_assoc, ← Nat.sub_sub]
      exact filled

/-- The size is the one that is written, so the assertion holds. -/
theorem serializeTxouts_eq (p : Profile) (tx : Tx) : serializeTxouts p tx = .ok (serializeArray serializeTxOut tx.txouts) := by
  have sizes : (tx.txouts.map TxOut.serializedLength).sum = (tx.txouts.flatMap serializeTxOut).length := by
    rw [List.length_flatMap]
    exact congrArg List.sum (List.map_congr_left fun txout _ => (length_serializeTxOut txout).symm)
  rw [serializeTxouts, sizes, ← length_serializeVarint]
  dsimp only
  have filled := filled_replicate ((serializeVarint (UInt64.ofNat tx.txouts.length)).length +
    (tx.txouts.flatMap serializeTxOut).length)
  obtain ⟨_, count, filled⟩ := serializeVarintIntoSlice_filled filled (show _ = 0 from rfl) (UInt64.ofNat tx.txouts.length)
    (Nat.le_add_right _ _)
  rw [Nat.add_sub_cancel_left, List.nil_append] at filled
  obtain ⟨_, written, filled⟩ := flatSerializeTxouts_filled filled rfl (le_refl (tx.txouts.flatMap serializeTxOut).length)
  rw [Nat.sub_self] at filled
  rw [count, Outcome.ok_bind]
  dsimp only
  rw [written, Outcome.ok_bind]
  dsimp only
  rw [if_neg (fun differ => differ.2 rfl), filled.full]
  rfl

theorem writeTxhashes_filled {transactions : List SerializedTx} (filled : Filled buffer front room)
    (start : front.length = position) (fits : 52 * transactions.length ≤ room) :
    ∃ next, writeTxhashes transactions position buffer = .ok next ∧
      Filled next (front ++ transactions.flatMap serializeBlockTxEntry) (room - 52 * transactions.length) := by
  induction transactions generalizing buffer front room position with
  | nil =>
    rw [List.flatMap_nil, List.append_nil]
    exact ⟨buffer, rfl, filled⟩
  | cons transaction rest ih =>
    rw [List.length_cons] at fits ⊢
    obtain ⟨_, hash, filled⟩ := filled.writeAt start transaction.hash.1 (by rw [transaction.hash.2]; omega)
    rw [transaction.hash.2] at filled
    obtain ⟨_, txoutsSum, filled⟩ := filled.writeAt (show _ = position + 32 by rw [List.length_append, start, transaction.hash.2])
      (leBytes 8 transaction.txoutsSum.toNat) (by rw [length_leBytes]; omega)
    rw [length_leBytes] at filled
    obtain ⟨_, fee, filled⟩ := filled.writeAt
      (show _ = position + 40 by simp only [List.length_append, start, transaction.hash.2, length_leBytes])
      (leBytes 8 transaction.fee.toNat) (by rw [length_leBytes]; omega)
    rw [length_leBytes] at filled
    obtain ⟨_, sizeWus, filled⟩ := filled.writeAt
      (show _ = position + 48 by simp only [List.length_append, start, transaction.hash.2, length_leBytes])
      (leBytes 4 transaction.sizeWus.toNat) (by rw [length_leBytes]; omega)
    rw [length_leBytes] at filled
    obtain ⟨last, later, filled⟩ := ih filled
      (show _ = position + 52 by simp only [List.length_append, start, transaction.hash.2, length_leBytes]) (by omega)
    refine ⟨last, ?_, ?_⟩
    · rw [writeTxhashes, hash, Outcome.ok_bind, txoutsSum, Outcome.ok_bind, fee, Outcome.ok_bind, sizeWus, Outcome.ok_bind,
        later]
    · rw [List.flatMap_cons, ← List.append_assoc, serializeBlockTxEntry, ← List.append_assoc, ← List.append_assoc,
        ← List.append_assoc, show room - 52 * (rest.length + 1) = room - 32 - 8 - 8 - 4 - 52 * rest.length by omega]
      exact filled

theorem writeBlockRecord_eq (blockHash : Hash) (transactions : List SerializedTx) :
    writeBlockRecord transactions = .ok (serializedTxhashes ⟨blockHash, transactions⟩) := by
  rw [writeBlockRecord, ← length_serializeVarint]
  dsimp only
  have filled := filled_replicate ((serializeVarint (UInt64.ofNat transactions.length)).length + 52 * transactions.length)
  obtain ⟨_, count, filled⟩ := serializeVarintIntoSlice_filled filled (show _ = 0 from rfl) (UInt64.ofNat transactions.length)
    (Nat.le_add_right _ _)
  rw [Nat.add_sub_cancel_left, List.nil_append] at filled
  obtain ⟨_, written, filled⟩ := writeTxhashes_filled filled rfl (le_refl (52 * transactions.length))
  rw [Nat.sub_self] at filled
  rw [count, Outcome.ok_bind]
  dsimp only
  rw [written, filled.full]
  rfl

/-! The records of a transaction and of a block. -/

/-- The values of the outputs fit, and unless they are new they come from those that are spent. -/
structure KnownTx.Covered (known : KnownTx) : Prop where
  paid : valueOf known.tx.txouts < 2 ^ 64
  spent : known.tx.isCoinbase = false →
    valueOf known.dependencies < 2 ^ 64 ∧ valueOf known.tx.txouts ≤ valueOf known.dependencies

/-- `analyze_tx`, with a possible result of the sort of the address amends. -/
def AnalyzesTxWith (p : Profile) (getTransactionSigopCost : Tx → List TxOut → UInt32 → Outcome Nat) (blockHash : Hash)
    (known : KnownTx) (timestamp : UInt64) (record : SerializedTx) : Prop :=
  ∃ addressAmends, SerializesAddressAmends p known.tx known.dependencies timestamp addressAmends ∧
    analyzeTxWith p getTransactionSigopCost blockHash known.tx known.dependencies addressAmends = .ok record

/-- The record gives back what was analysed. -/
structure ReadsBack (blockHash : Hash) (known : KnownTx) (sigops : Nat) (record : SerializedTx) : Prop where
  hash : record.hash = known.tx.hash
  fee : record.fee.toNat = feeOf (known.tx, known.dependencies)
  txoutsSum : record.txoutsSum.toNat = valueOf known.tx.txouts
  sizeWus : record.sizeWus = UInt32.ofNat (calculateTxSizeWus known.tx)
  analyzedTx : deserializeAnalyzedTx record.analyzedTx record.hash = .ok ⟨record.fee, record.txoutsSum, record.sizeWus,
    UInt32.ofNat sigops, blockHash, known.tx.withoutTxouts, known.dependencies.map (·.value)⟩
  txOuts : deserializeArrayOwned deserializeTxOut record.txOuts = .ok (known.tx.txouts, record.txOuts.length)

/-- The record of a block gives back its transactions. -/
def BlockReadsBack (transactions : List SerializedTx) : Prop :=
  ∃ serialized, writeBlockRecord transactions = .ok serialized ∧
    ∀ (store : Hash → Option Bytes) blockHash, store blockHash = some serialized →
      getBlockTxEntries store blockHash = .ok (transactions.map SerializedTx.entry)

variable {cost : Tx → List TxOut → UInt32 → Outcome Nat} {blockHash : Hash} {known : KnownTx} {timestamp : UInt64}
  {record : SerializedTx} {sigops : Nat}

/-- The written arrays are those of the encoders. -/
theorem analyzeTxWith_eq {tx : Tx} {dependencies : List TxOut} {addressAmends : Option (List (Bytes × Int64))} :
    analyzeTxWith p cost blockHash tx dependencies addressAmends = (do
      let fee ← (if tx.isCoinbase then .ok 0 else calculateFee p tx dependencies : Outcome Nat)
      let txoutsSum ← sumU64 p (tx.txouts.map (·.value))
      let sigops ← cost tx dependencies (scriptFlags tx)
      pure {
        hash := tx.hash
        analyzedTx := serializeAnalyzedTx (UInt64.ofNat fee) (UInt64.ofNat txoutsSum)
          (UInt32.ofNat (calculateTxSizeWus tx)) (UInt32.ofNat sigops) blockHash tx dependencies
        txOuts := serializeArray serializeTxOut tx.txouts
        spentTxos := if tx.isCoinbase then none else some (serializeSpends tx)
        addressAmends := addressAmends
        fee := UInt64.ofNat fee
        txoutsSum := UInt64.ofNat txoutsSum
        sizeWus := UInt32.ofNat (calculateTxSizeWus tx) }) := by
  simp only [analyzeTxWith, writeAnalyzedTx_eq, serializeTxouts_eq, Outcome.ok_bind, scriptFlags]

/-- The record is one that the analysis without buffers makes. -/
theorem AnalyzesTxWith.analyzesKnown {block : KnownBlock}
    (analyzes : AnalyzesTxWith p cost block.header.hash known block.timestamp record) : AnalyzesKnown p block known record := by
  obtain ⟨addressAmends, serializes, result⟩ := analyzes
  rw [analyzeTxWith_eq] at result
  obtain ⟨fee, atFee, result⟩ := Outcome.bind_eq_ok.mp result
  obtain ⟨txoutsSum, atSum, result⟩ := Outcome.bind_eq_ok.mp result
  obtain ⟨sigops, _, result⟩ := Outcome.bind_eq_ok.mp result
  cases result
  refine ⟨⟨fun _ _ => .ok (UInt32.ofNat sigops), fun _ _ _ => .ok addressAmends⟩, ?_, serializes⟩
  rw [analyzeTx, atFee, Outcome.ok_bind, atSum, Outcome.ok_bind]
  rfl

theorem readsBack_of_analyzeTxWith (complete : known.tx.Complete) (bound : (serializeTx known.tx).length < 2 ^ 62)
    (covered : known.Covered) (returns : cost known.tx known.dependencies (scriptFlags known.tx) = .ok sigops)
    (addressAmends : Option (List (Bytes × Int64))) :
    ∃ record, analyzeTxWith p cost blockHash known.tx known.dependencies addressAmends = .ok record ∧
      ReadsBack blockHash known sigops record := by
  have sum : sumU64 p (known.tx.txouts.map (·.value)) = .ok (valueOf known.tx.txouts) := by
    rw [sumU64_of_lt (by rw [valueOf_eq]; exact covered.paid), valueOf_eq]
  have fee : (if known.tx.isCoinbase then .ok 0 else calculateFee p known.tx known.dependencies : Outcome Nat) =
      .ok (feeOf (known.tx, known.dependencies)) := by
    unfold feeOf
    cases coinbase : known.tx.isCoinbase with
    | true => rfl
    | false => exact calculateFee_of_le (covered.spent coinbase).1 (covered.spent coinbase).2
  have feeBound : feeOf (known.tx, known.dependencies) < 2 ^ 64 := by
    unfold feeOf
    cases coinbase : known.tx.isCoinbase with
    | true => exact Nat.two_pow_pos 64
    | false => exact Nat.lt_of_le_of_lt (Nat.sub_le _ _) (covered.spent coinbase).1
  have count : known.dependencies.length < 2 ^ 60 := by
    have inputs := length_txins_le known.tx
    have counted := txinCount_le known.tx
    rw [known.count]
    omega
  have txouts := @decodes_txouts known.tx.txouts (by
    have small := complete.small
    simp only [serializeTx, List.length_append] at small
    omega) []
  rw [List.append_nil] at txouts
  rw [analyzeTxWith_eq, fee, Outcome.ok_bind, sum, Outcome.ok_bind, returns, Outcome.ok_bind]
  exact ⟨_, rfl, {
    hash := rfl
    fee := UInt64.toNat_ofNat_of_lt' feeBound
    txoutsSum := UInt64.toNat_ofNat_of_lt' covered.paid
    sizeWus := rfl
    analyzedTx := deserializeAnalyzedTx_ok complete (lt_trans bound (by decide)) count _ _ _ _ _
    txOuts := txouts }⟩

theorem blockReadsBack {transactions : List SerializedTx} (small : transactions.length < 2 ^ 57) :
    BlockReadsBack transactions := by
  refine ⟨_, writeBlockRecord_eq emptyHash transactions, fun store blockHash found => ?_⟩
  exact @getBlockTxEntries_ok store ⟨blockHash, transactions⟩ found (lt_trans small (by decide))

/-- What a transaction is good for that was parsed from a buffer. -/
theorem parsed_complete {sha256 : Bytes → Hash} {tx : Tx} {buffer : Bytes} {arena : Arena} {consumed read used : Nat}
    (short : buffer.length < 2 ^ 61) (accepted : deserializeTx (m := Parser) sha256 buffer arena consumed = .ok ((tx, read), used)) :
    tx.Complete ∧ (serializeTx tx).length ≤ 2 * buffer.length := by
  obtain ⟨⟨within, written⟩, complete⟩ := (@Agrees.deserializeTx buffer sha256 (by omega)).of_ok accepted
  have within : read ≤ buffer.length := within
  have written : (serializeTx tx).length ≤ 2 * read := written
  exact ⟨complete, by omega⟩

/-- What is stored of a parsed transaction and of a block is read back, exactly if no
spent output has the value that the address amends cannot negate. -/
theorem storedRecords_iff {sha256 : Bytes → Hash} {buffer : Bytes} {arena : Arena} {consumed read used : Nat}
    (short : buffer.length < 2 ^ 61)
    (accepted : deserializeTx (m := Parser) sha256 buffer arena consumed = .ok ((known.tx, read), used))
    (covered : known.Covered) (returns : cost known.tx known.dependencies (scriptFlags known.tx) = .ok sigops) :
    ((∃ record, AnalyzesTxWith p cost blockHash known timestamp record) ∧
        (∀ record, AnalyzesTxWith p cost blockHash known timestamp record → ReadsBack blockHash known sigops record) ∧
        ∀ transactions : List SerializedTx, transactions.length < 2 ^ 57 → BlockReadsBack transactions) ↔
      ∀ txout ∈ known.dependencies, Deductible p txout := by
  obtain ⟨complete, bound⟩ := parsed_complete short accepted
  have back := @readsBack_of_analyzeTxWith p cost blockHash known sigops complete (by omega) covered returns
  rw [← exists_serializes known timestamp]
  constructor
  · rintro ⟨⟨_, addressAmends, serializes, _⟩, _⟩
    exact ⟨addressAmends, serializes⟩
  · rintro ⟨addressAmends, serializes⟩
    obtain ⟨record, result, _⟩ := back addressAmends
    refine ⟨⟨record, addressAmends, serializes, result⟩, ?_, fun _ small => blockReadsBack small⟩
    rintro record ⟨addressAmends, _, result⟩
    obtain ⟨same, result', readsBack⟩ := back addressAmends
    cases result.symm.trans result'
    exact readsBack

/-! A transaction that spends one output to a key. -/

def spendingKey : Tx :=
  ⟨2, 0, [⟨emptyHash, 0, 0, []⟩], [], none, emptyHash, emptyHash⟩

def spendingValue (value : UInt64) : KnownTx where
  tx := spendingKey
  dependencies := [⟨value, keyProgram⟩]
  count := rfl

set_option maxRecDepth 10000 in
theorem spendingKey_accepted :
    deserializeTx (m := Parser) (fun _ => emptyHash) (serializeTx spendingKey) megabyteArena 0 =
      .ok ((spendingKey, 51), 32) := by
  rfl

theorem spendingValue_covered (value : UInt64) : (spendingValue value).Covered := by
  refine ⟨Nat.two_pow_pos 64, fun _ => ⟨?_, Nat.zero_le _⟩⟩
  exact value.toNat_lt

theorem spendingValue_cost (value : UInt64) :
    getTransactionSigopCost spendingKey (spendingValue value).dependencies (scriptFlags spendingKey) = .ok 0 := by
  have none : scriptOps [] = [] := by rw [scriptOps]
  have count : getSigopCount [] false = .ok 0 := by
    rw [getSigopCount, none]
    rfl
  have legacy : getLegacySigops spendingKey = .ok 0 := by
    change (getSigopCount [] false >>= _) >>= _ = _
    rw [count]
    rfl
  have p2sh : getP2shSigopCount spendingKey (spendingValue value).dependencies = .ok 0 := rfl
  rw [show scriptFlags spendingKey = 1 from rfl, getTransactionSigopCost, legacy, p2sh, Outcome.ok_bind]
  rfl

theorem storedRecords_iff_spendingValue :
    ((∃ record, AnalyzesTxWith .dev getTransactionSigopCost emptyHash (spendingValue 50) 0 record) ∧
        (∀ record, AnalyzesTxWith .dev getTransactionSigopCost emptyHash (spendingValue 50) 0 record →
          ReadsBack emptyHash (spendingValue 50) 0 record) ∧
        ∀ transactions : List SerializedTx, transactions.length < 2 ^ 57 → BlockReadsBack transactions) ↔
      ∀ txout ∈ (spendingValue 50).dependencies, Deductible .dev txout :=
  storedRecords_iff (by decide) spendingKey_accepted (spendingValue_covered 50) (spendingValue_cost 50)

/-- The negative of `2 ^ 63` does not fit, so in `dev` there is no record. -/
theorem storedRecords_fail :
    ¬ ∀ (p : Profile) (sha256 : Bytes → Hash) (buffer : Bytes) (arena : Arena) (consumed read used : Nat) (known : KnownTx)
      (blockHash : Hash) (timestamp : UInt64) (sigops : Nat),
      deserializeTx (m := Parser) sha256 buffer arena consumed = .ok ((known.tx, read), used) → known.Covered →
        getTransactionSigopCost known.tx known.dependencies (scriptFlags known.tx) = .ok sigops →
          (∃ record, AnalyzesTxWith p getTransactionSigopCost blockHash known timestamp record) ∧
            ∀ record, AnalyzesTxWith p getTransactionSigopCost blockHash known timestamp record →
              ReadsBack blockHash known sigops record := by
  intro claim
  obtain ⟨⟨_, addressAmends, serializes, _⟩, _⟩ := claim .dev _ _ _ _ _ _ (spendingValue 0x8000000000000000) emptyHash 0 0
    spendingKey_accepted (spendingValue_covered _) (spendingValue_cost _)
  have deductible := (exists_serializes (spendingValue 0x8000000000000000) 0).mp ⟨addressAmends, serializes⟩
  exact deductible _ List.mem_cons_self rfl (by decide) rfl

end Bitlens

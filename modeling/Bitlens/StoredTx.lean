import Bitlens.RoundTrip

namespace Bitlens
open Lib

variable {bytes rest : Bytes}

theorem expect_ok {α : Type} (a : α) : expect (.ok a) = .ok a := rfl

theorem decodes_u64 (value : UInt64) : Decodes deserializeU64 (leBytes 8 value.toNat) value := by
  intro rest
  have read : (getU64Le (leBytes 8 value.toNat ++ rest) 0 : Outcome UInt64) = .ok value :=
    @getU64Le_ok _ [] rest 0 value rfl rfl (by decide)
  rw [deserializeU64, read, length_leBytes]
  rfl

theorem deserializeArrayOwned_values {dependencies : List TxOut} (small : dependencies.length < 2 ^ 60) (rest : Bytes) :
    deserializeArrayOwned deserializeU64 (serializeArray (fun txout => leBytes 8 txout.value.toNat) dependencies ++ rest) =
      .ok (dependencies.map (·.value), (serializeArray (fun txout => leBytes 8 txout.value.toNat) dependencies).length) := by
  have same : serializeArray (fun txout : TxOut => leBytes 8 txout.value.toNat) dependencies =
      serializeArray (fun value : UInt64 => leBytes 8 value.toNat) (dependencies.map (·.value)) := by
    rw [serializeArray, serializeArray, List.length_map, List.flatMap_map]
  have total : (serializeArray (fun value : UInt64 => leBytes 8 value.toNat) (dependencies.map (·.value))).length < 2 ^ 64 := by
    have count := length_serializeVarint_le (UInt64.ofNat (dependencies.map (·.value)).length)
    rw [serializeArray, List.length_append, length_flatMap_const _ fun value _ => length_leBytes 8 _, List.length_map]
    rw [List.length_map] at count
    omega
  rw [same]
  exact decodes_items (fun value _ => decodes_u64 value) total (by rw [List.length_map]; omega) rest

/-- A stored transaction is read back with all its numbers, but without outputs and
witness hash. -/
theorem deserializeAnalyzedTx_ok {tx : Tx} (complete : tx.Complete) (bound : (serializeTx tx).length < 2 ^ 63)
    {dependencies : List TxOut} (small : dependencies.length < 2 ^ 60) (fee txoutsSum : UInt64) (sizeWus sigops : UInt32)
    (blockHash : Hash) :
    deserializeAnalyzedTx (serializeAnalyzedTx fee txoutsSum sizeWus sigops blockHash tx dependencies) tx.hash =
      .ok ⟨fee, txoutsSum, sizeWus, sigops, blockHash, tx.withoutTxouts, dependencies.map (·.value)⟩ := by
  have bound : (serializeWithoutTxouts tx).length < 2 ^ 63 + 64 := by
    rw [length_serializeWithoutTxouts]
    simp only [serializeTx, List.length_append, length_leBytes] at bound
    omega
  have values := deserializeArrayOwned_values small (List.replicate 8 0)
  have back := deserializeWithoutTxouts_ok complete
    (serializeArray (fun txout => leBytes 8 txout.value.toNat) dependencies ++ List.replicate 8 0)
  have shape : serializeAnalyzedTx fee txoutsSum sizeWus sigops blockHash tx dependencies =
      leBytes 8 fee.toNat ++ (leBytes 8 txoutsSum.toNat ++ (leBytes 4 sizeWus.toNat ++ (leBytes 4 sigops.toNat ++
        (blockHash.1 ++ (serializeWithoutTxouts tx ++
          (serializeArray (fun txout => leBytes 8 txout.value.toNat) dependencies ++ List.replicate 8 0)))))) := by
    simp only [serializeAnalyzedTx, List.append_assoc]
  generalize serializeAnalyzedTx fee txoutsSum sizeWus sigops blockHash tx dependencies = data at shape
  have atSum := shape
  have atSize := atSum.trans (List.append_assoc _ _ _).symm
  have atSigops := atSize.trans (List.append_assoc _ _ _).symm
  have atHash := atSigops.trans (List.append_assoc _ _ _).symm
  have atTx := atHash.trans (List.append_assoc _ _ _).symm
  have atValues := atTx.trans (List.append_assoc _ _ _).symm
  have feeRead : (getU64Le data 0 : Outcome UInt64) = .ok fee := @getU64Le_ok _ [] _ 0 _ shape rfl (by decide)
  have sumRead := getU64Le_ok atSum (length_leBytes 8 _) (by decide)
  have sizeRead := getU32Le_ok atSize (by rw [List.length_append, length_leBytes, length_leBytes]) (by decide)
  have sigopsRead := getU32Le_ok atSigops (by simp only [List.length_append, length_leBytes]; rfl) (by decide)
  have hashRead := getHash_ok atHash (by simp only [List.length_append, length_leBytes]; rfl) (by decide)
  have txRead := withOffset_ok atTx (by simp only [List.length_append, length_leBytes, blockHash.2]; rfl)
  have valuesRead := withOffset_ok atValues (show _ = 56 + (serializeWithoutTxouts tx).length by
    simp only [List.length_append, length_leBytes, blockHash.2])
  rw [deserializeAnalyzedTx, feeRead, sumRead, sizeRead, sigopsRead, hashRead, txRead]
  simp only [expect_ok, Outcome.ok_bind]
  rw [back, expect_ok, Outcome.ok_bind]
  dsimp only
  rw [Profile.add_of_lt (by omega), Outcome.ok_bind, valuesRead, expect_ok, Outcome.ok_bind, values, expect_ok, Outcome.ok_bind]
  rfl

/-! The records of a batch. -/

/-- The record is the one that `analyze_tx` makes of the transaction, with at most one
dependency for each input. -/
def AnalyzesTx (p : Profile) (scripts : Scripts) (header : BlockHeaderOwned) (tx : Tx) (record : SerializedTx) : Prop :=
  ∃ dependencies : List TxOut, dependencies.length ≤ tx.txins.length ∧
    analyzeTx p scripts header.hash tx dependencies header.timestamp.toUInt64 = .ok record

def AnalyzesBlock (p : Profile) (scripts : Scripts) (block : Block) (analyzed : AnalyzedBlock) : Prop :=
  analyzed.hash = block.header.hash ∧ List.Forall₂ (AnalyzesTx p scripts block.header) block.txs analyzed.txs

variable {p : Profile} {scripts : Scripts}

/-- What the result of the analysis keeps of the transaction. -/
theorem analyzeTx_eq_ok {blockHash : Hash} {tx : Tx} {dependencies : List TxOut} {timestamp : UInt64}
    {record : SerializedTx} (result : analyzeTx p scripts blockHash tx dependencies timestamp = .ok record) :
    record.hash = tx.hash ∧ ∃ sigops, record.analyzedTx =
      serializeAnalyzedTx record.fee record.txoutsSum record.sizeWus sigops blockHash tx dependencies := by
  unfold analyzeTx at result
  obtain ⟨fee, _, result⟩ := Outcome.bind_eq_ok.mp result
  obtain ⟨txoutsSum, _, result⟩ := Outcome.bind_eq_ok.mp result
  obtain ⟨sigops, _, result⟩ := Outcome.bind_eq_ok.mp result
  obtain ⟨addressAmends, _, result⟩ := Outcome.bind_eq_ok.mp result
  cases result
  exact ⟨rfl, _, rfl⟩

theorem AnalyzesTx.hash {header : BlockHeaderOwned} {tx : Tx} {record : SerializedTx}
    (analyzes : AnalyzesTx p scripts header tx record) : record.hash = tx.hash := by
  obtain ⟨dependencies, _, result⟩ := analyzes
  exact (analyzeTx_eq_ok result).1

/-- A record that is found in the store gives the transaction without its outputs, and its numbers. -/
theorem AnalyzesTx.getAnalyzedTx {header : BlockHeaderOwned} {tx : Tx} {record : SerializedTx}
    (analyzes : AnalyzesTx p scripts header tx record) (readable : tx.Readable) {store : Hash → Option Bytes}
    (found : store tx.hash = some record.analyzedTx) :
    ∃ v, getAnalyzedTx store tx.hash = .ok v ∧ v.tx = tx.withoutTxouts ∧
      v.txoutsSum = record.txoutsSum ∧ v.fee = record.fee ∧ v.sizeWus = record.sizeWus := by
  obtain ⟨dependencies, count, result⟩ := analyzes
  obtain ⟨_, sigops, stored⟩ := analyzeTx_eq_ok result
  have inputs := lt_of_le_of_lt (length_txins_le tx) readable.small
  have back := deserializeAnalyzedTx_ok readable.complete (lt_trans readable.small (by decide))
    (show dependencies.length < 2 ^ 60 by omega) record.fee record.txoutsSum record.sizeWus sigops header.hash
  have nonempty : record.analyzedTx.isEmpty = false := by
    rw [stored]
    rfl
  refine ⟨⟨record.fee, record.txoutsSum, record.sizeWus, sigops, header.hash, tx.withoutTxouts,
    dependencies.map (·.value)⟩, ?_, rfl, rfl, rfl, rfl⟩
  rw [Bitlens.getAnalyzedTx, found]
  dsimp only
  rw [nonempty, if_neg Bool.false_ne_true, stored, back]
  rfl

/-! The transaction list of a block. -/

/-- One entry of the list. -/
def serializeBlockTxEntry (tx : SerializedTx) : Bytes :=
  tx.hash.1 ++ leBytes 8 tx.txoutsSum.toNat ++ leBytes 8 tx.fee.toNat ++ leBytes 4 tx.sizeWus.toNat

theorem length_serializeBlockTxEntry (tx : SerializedTx) : (serializeBlockTxEntry tx).length = 52 := by
  simp only [serializeBlockTxEntry, List.length_append, length_leBytes, tx.hash.2]

def SerializedTx.entry (tx : SerializedTx) : BlockTxEntry :=
  ⟨tx.hash, tx.txoutsSum, tx.fee, tx.sizeWus⟩

theorem readBlockTxEntries_ok {data front : Bytes} {txs : List SerializedTx} {continueAt : Nat}
    (split : data = front ++ txs.flatMap serializeBlockTxEntry) (start : front.length = continueAt)
    (small : continueAt + 52 * txs.length < 2 ^ 64) :
    readBlockTxEntries data txs.length continueAt = .ok (txs.map SerializedTx.entry) := by
  induction txs generalizing front continueAt with
  | nil => rfl
  | cons tx txs ih =>
    rw [List.length_cons] at small
    rw [List.flatMap_cons] at split
    have read := ih (split.trans (List.append_assoc _ _ _).symm)
      (by rw [List.length_append, length_serializeBlockTxEntry, start]) (by omega)
    have slice : getRange data continueAt data.length =
        some (serializeBlockTxEntry tx ++ txs.flatMap serializeBlockTxEntry) := by
      subst start split
      refine getRange_eq_some.mpr ⟨by rw [List.length_append]; omega, le_rfl, ?_⟩
      rw [List.take_length, List.drop_left]
    have shape : serializeBlockTxEntry tx ++ txs.flatMap serializeBlockTxEntry = tx.hash.1 ++
        (leBytes 8 tx.txoutsSum.toNat ++ (leBytes 8 tx.fee.toNat ++ (leBytes 4 tx.sizeWus.toNat ++
          txs.flatMap serializeBlockTxEntry))) := by
      simp only [serializeBlockTxEntry, List.append_assoc]
    generalize serializeBlockTxEntry tx ++ txs.flatMap serializeBlockTxEntry = bytes at slice shape
    have atFee := shape.trans (List.append_assoc _ _ _).symm
    have atSize := atFee.trans (List.append_assoc _ _ _).symm
    have hash : (getHash bytes 0 : Outcome Hash) = .ok tx.hash := @getHash_ok _ [] _ 0 _ shape rfl (by decide)
    have value := getU64Le_ok shape tx.hash.2 (by decide)
    have fee := getU64Le_ok atFee (by rw [List.length_append, tx.hash.2, length_leBytes]) (by decide)
    have size := getU32Le_ok atSize (by simp only [List.length_append, tx.hash.2, length_leBytes]; rfl) (by decide)
    rw [List.length_cons, readBlockTxEntries, slice, Outcome.unwrap_some, Outcome.ok_bind, hash, expect_ok,
      Outcome.ok_bind, value, expect_ok, Outcome.ok_bind, fee, expect_ok, Outcome.ok_bind, size, expect_ok,
      Outcome.ok_bind, Profile.add_of_lt (by omega), Outcome.ok_bind, read]
    rfl

/-- The stored list of a block is read back in order. -/
theorem getBlockTxEntries_ok {store : Hash → Option Bytes} {analyzed : AnalyzedBlock}
    (found : store analyzed.hash = some (serializedTxhashes analyzed)) (small : analyzed.txs.length < 2 ^ 58) :
    getBlockTxEntries store analyzed.hash = .ok (analyzed.txs.map SerializedTx.entry) := by
  have shape : serializedTxhashes analyzed = serializeVarint (UInt64.ofNat analyzed.txs.length) ++
      analyzed.txs.flatMap serializeBlockTxEntry := rfl
  have count := length_serializeVarint_le (UInt64.ofNat analyzed.txs.length)
  have read := readBlockTxEntries_ok shape rfl (by omega)
  have nonempty : (serializedTxhashes analyzed).isEmpty = false := by
    have positive : 0 < (serializeVarint (UInt64.ofNat analyzed.txs.length)).length := by
      rw [length_serializeVarint, lengthVarint]
      split
      · omega
      split
      · omega
      split <;> omega
    rw [shape, List.isEmpty_eq_false_iff]
    intro empty
    rw [(List.append_eq_nil_iff.mp empty).1] at positive
    cases positive
  rw [getBlockTxEntries, found]
  dsimp only
  rw [nonempty, if_neg Bool.false_ne_true, shape, decodes_varint, Outcome.ok_bind, ← shape]
  dsimp only
  rw [toNat_ofNat_length (by omega), read]
  rfl

end Bitlens

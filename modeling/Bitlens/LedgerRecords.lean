import Bitlens.AddressIndex
import Bitlens.Ledger
import Bitlens.TxWire

namespace Bitlens
open Lib

variable {p : Profile} {scripts : Scripts} {s t : Stores} {block earlier : Block} {analyzed : AnalyzedBlock}
  {header : BlockHeaderOwned} {tx : Tx} {record : SerializedTx}

/-! The record of a transaction. -/

theorem AnalyzesTx.spentTxos (analyzes : AnalyzesTx p scripts header tx record) :
    record.spentTxos = if tx.isCoinbase then none else some (serializeSpends tx) := by
  obtain ⟨_, _, result⟩ := analyzes
  exact (analyzeTx_parts result).1

theorem AnalyzesTx.txOuts (analyzes : AnalyzesTx p scripts header tx record) :
    record.txOuts = serializeArray serializeTxOut tx.txouts := by
  obtain ⟨_, _, result⟩ := analyzes
  obtain ⟨_, _, result⟩ := Outcome.bind_eq_ok.mp result
  obtain ⟨_, _, result⟩ := Outcome.bind_eq_ok.mp result
  obtain ⟨_, _, result⟩ := Outcome.bind_eq_ok.mp result
  obtain ⟨_, _, result⟩ := Outcome.bind_eq_ok.mp result
  cases result
  rfl

/-- The stored outputs are read back. -/
theorem AnalyzesTx.getTransactionOutputs (analyzes : AnalyzesTx p scripts header tx record) (readable : tx.Readable)
    {store : Hash → Option Bytes} (found : store tx.hash = some record.txOuts) :
    getTransactionOutputs store tx.hash = .ok tx.txouts := by
  have small := readable.small
  simp only [serializeTx, List.length_append] at small
  have decoded := @decodes_txouts tx.txouts (by omega) []
  rw [List.append_nil] at decoded
  have filled : (serializeArray serializeTxOut tx.txouts).isEmpty = false := by
    have positive := length_serializeVarint_pos (UInt64.ofNat tx.txouts.length)
    rw [List.isEmpty_eq_false_iff, serializeArray, ← List.length_pos_iff, List.length_append]
    omega
  rw [Bitlens.getTransactionOutputs, found, analyzes.txOuts]
  dsimp only
  rw [filled, if_neg Bool.false_ne_true]
  rw [show deserializeArrayOwned deserializeTxOut (serializeArray serializeTxOut tx.txouts) = _ from decoded]
  rfl

theorem AnalyzesBlock.hashes (analyzes : AnalyzesBlock p scripts block analyzed) :
    analyzed.txs.map (·.hash) = block.txs.map (·.hash) := by
  have pairs := (List.forall₂_map_right_iff.mpr (List.forall₂_map_left_iff.mpr
    (analyzes.2.flip.imp fun record tx each => AnalyzesTx.hash each)) :
      List.Forall₂ Eq (analyzed.txs.map (·.hash)) (block.txs.map (·.hash)))
  rwa [List.forall₂_eq_eq_eq] at pairs

/-- The pairs for the spend table are those of the inputs. -/
theorem AnalyzesBlock.mem_blockSpends (analyzes : AnalyzesBlock p scripts block analyzed) {outpoint : ByteArr 36}
    {value : Bytes} : (outpoint, value) ∈ blockSpends analyzed ↔ block.Spends outpoint value := by
  obtain ⟨hash, txs⟩ := analyzes
  simp only [blockSpends, List.mem_flatMap, List.mem_map, Prod.mk.injEq]
  constructor
  · rintro ⟨record, member, _, spent, rfl, rfl⟩
    obtain ⟨tx, inBlock, each⟩ := exists_left txs member
    rw [each.spentTxos] at spent
    cases coinbase : tx.isCoinbase with
    | true => simp [coinbase] at spent
    | false => exact ⟨tx, inBlock, coinbase, by simpa [coinbase] using spent, by rw [each.hash, hash]⟩
  · rintro ⟨tx, member, coinbase, spent, rfl⟩
    obtain ⟨record, inAnalyzed, each⟩ := exists_right txs member
    refine ⟨record, inAnalyzed, outpoint, ?_, rfl, by rw [each.hash, hash]⟩
    rw [each.spentTxos, coinbase]
    exact spent

theorem Block.Spends.mem_outpoints {outpoint : ByteArr 36} {value : Bytes} (spends : block.Spends outpoint value) :
    outpoint ∈ block.outpoints := by
  obtain ⟨tx, member, coinbase, spent, _⟩ := spends
  exact List.mem_flatMap.mpr ⟨tx, List.mem_filter.mpr ⟨member, by simp [coinbase]⟩, spent⟩

/-! The arrays of a block are written. -/

/-- The amends of a transaction come sorted, and each key ends in its hash. -/
def Scripts.Keyed (scripts : Scripts) : Prop :=
  ∀ tx deps timestamp amends, scripts.serializeAddressAmends tx deps timestamp = .ok (some amends) →
    (amends.Pairwise fun a b => a.1 ≤ b.1) ∧ ∀ amend ∈ amends, ∃ front, amend.1 = front ++ tx.hash.1

theorem key_endsIn {script key : Bytes} {txhash : Hash} {timestamp : UInt64}
    (found : getAddressFromScriptCopyIntoArenaWithTxhash script txhash timestamp = some key) :
    ∃ front, key = front ++ txhash.1 := by
  obtain ⟨address, _, rfl⟩ := Option.map_eq_some_iff.mp found
  exact ⟨_, rfl⟩

theorem checkedScripts_keyed : checkedScripts.Keyed := by
  intro tx deps timestamp amends made
  have serializes := checkedScripts_serializes made
  rw [SerializesAddressAmends] at serializes
  split at serializes
  · cases serializes
  · obtain ⟨collected, _, result, _, sorts, same⟩ := serializes
    cases same
    refine ⟨sorts.2, fun amend member => ?_⟩
    obtain ⟨spent, spends, shape⟩ := Outcome.bind_eq_ok.mp result
    cases shape
    rcases List.mem_append.mp (sorts.1.mem_iff.mp member) with inSpent | inPaid
    · obtain ⟨txout, _, pairs, ofTxout, inPairs⟩ := Outcome.mem_of_flatMapM spends inSpent
      unfold spentAmends at ofTxout
      split at ofTxout
      · next key found =>
        obtain ⟨delta, _, shape⟩ := Outcome.bind_eq_ok.mp ofTxout
        cases shape
        rw [List.mem_singleton.mp inPairs]
        exact key_endsIn found
      · cases ofTxout
        cases inPairs
    · obtain ⟨txout, _, found⟩ := List.mem_filterMap.mp inPaid
      obtain ⟨key, atKey, rfl⟩ := Option.map_eq_some_iff.mp found
      exact key_endsIn atKey

theorem AnalyzesTx.keys (keyed : scripts.Keyed) (analyzes : AnalyzesTx p scripts header tx record)
    {merged : List (Bytes × Int64)} (made : mergeAmends p [] (record.addressAmends.getD []) = .ok merged) :
    (merged.map Prod.fst).Nodup ∧ ∀ key ∈ merged.map Prod.fst, ∃ front, key = front ++ tx.hash.1 := by
  obtain ⟨deps, _, result⟩ := analyzes
  have amends := (analyzeTx_parts result).2
  have both : (record.addressAmends.getD []).Pairwise (fun a b => a.1 ≤ b.1) ∧
      ∀ amend ∈ record.addressAmends.getD [], ∃ front, amend.1 = front ++ tx.hash.1 := by
    cases some : record.addressAmends with
    | none => exact ⟨.nil, nofun⟩
    | some pairs => exact keyed tx deps _ pairs (some ▸ amends)
  obtain ⟨nodup, members⟩ := keys_of_mergeAmends made ⟨both.1, .nil, nofun⟩
  refine ⟨nodup, fun key member => ?_⟩
  obtain ⟨amend, inAmends, rfl⟩ := List.mem_map.mp (((members key).mp member).resolve_left List.not_mem_nil)
  exact both.2 amend inAmends

/-- The hash at the end of a key. -/
def keyTxhash (key : Bytes) : Bytes :=
  key.drop (key.length - 32)

theorem keyTxhash_append (front : Bytes) (hash : Hash) : keyTxhash (front ++ hash.1) = hash.1 := by
  rw [keyTxhash, List.length_append, hash.2, Nat.add_sub_cancel, List.drop_left]

theorem AnalyzesBlock.amends_nodup (keyed : scripts.Keyed) (analyzes : AnalyzesBlock p scripts block analyzed)
    (distinct : (block.txs.map (·.hash)).Nodup) {pairs : List (Bytes × Bytes)} (made : blockAmends p analyzed = .ok pairs) :
    (pairs.map Prod.fst).Nodup := by
  have names : (analyzed.txs.map fun record => record.hash.1).Nodup := by
    have hashes := analyzes.hashes ▸ distinct
    rw [show (fun record : SerializedTx => record.hash.1) = Subtype.val ∘ SerializedTx.hash from rfl, ← List.map_map]
    exact hashes.map Subtype.val_injective
  refine @Outcome.nodup_of_flatMapM _ _ _ _ _ _ _ keyTxhash _ _ names (fun record member pairs result => ?_) made
  obtain ⟨tx, _, each⟩ := exists_left analyzes.2 member
  obtain ⟨merged, merges, shape⟩ := Outcome.bind_eq_ok.mp result
  cases shape
  obtain ⟨nodup, ends⟩ := each.keys keyed merges
  refine ⟨by rwa [List.map_map], fun pair inPairs => ?_⟩
  obtain ⟨amend, inMerged, rfl⟩ := List.mem_map.mp inPairs
  obtain ⟨front, shape⟩ := ends amend.1 (List.mem_map_of_mem inMerged)
  rw [each.hash]
  exact shape ▸ keyTxhash_append front tx.hash

theorem AnalyzesBlock.spends_keys (analyzes : AnalyzesBlock p scripts block analyzed) :
    (blockSpends analyzed).map Prod.fst = block.outpoints := by
  have records : (blockSpends analyzed).map Prod.fst = analyzed.txs.flatMap fun record => record.spentTxos.getD [] := by
    rw [blockSpends, List.map_flatMap]
    refine List.flatMap_congr fun record _ => ?_
    rw [List.map_map]
    exact List.map_id _
  have txs : block.outpoints = block.txs.flatMap fun tx => if tx.isCoinbase then [] else serializeSpends tx := by
    unfold Block.outpoints
    induction block.txs with
    | nil => rfl
    | cons tx txs ih =>
      rw [List.filter_cons, List.flatMap_cons, ← ih]
      cases tx.isCoinbase <;> rfl
  rw [records, txs]
  refine flatMap_eq_of_pairs (analyzes.2.flip.imp fun record tx each => ?_)
  rw [AnalyzesTx.spentTxos each]
  cases tx.isCoinbase <;> rfl

/-- A block whose transactions have hashes of their own and that spends no output twice is written. -/
theorem AnalyzesBlock.exists_stored (keyed : scripts.Keyed) (analyzes : AnalyzesBlock p scripts block analyzed)
    (distinct : (block.txs.map (·.hash)).Nodup) (once : block.outpoints.Nodup) {a : Arrays}
    (made : arrays p [analyzed] = .ok a) (s : Stores) : ∃ t, StoresBatch p [analyzed] s t := by
  obtain ⟨amends, collected, shape⟩ := Outcome.bind_eq_ok.mp made
  obtain ⟨pairs, ofBlock, rest⟩ := Outcome.bind_eq_ok.mp collected
  cases rest
  cases shape
  have separate : Arrays.Separate ⟨[(analyzed.hash, serializedTxhashes analyzed)], [analyzed].flatMap (·.txs),
      [analyzed].flatMap blockSpends, pairs ++ []⟩ := by
    refine ⟨List.nodup_singleton _, ?_, ?_, fun x inX y inY same _ => ?_⟩
    · change (([analyzed].flatMap blockSpends).map Prod.fst).Nodup
      rw [List.flatMap_singleton, analyzes.spends_keys]
      exact once
    · change ((pairs ++ []).map Prod.fst).Nodup
      rw [List.append_nil]
      exact analyzes.amends_nodup keyed distinct ofBlock
    · rw [List.flatMap_singleton] at inX inY
      rw [List.inj_on_of_nodup_map (analyzes.hashes ▸ distinct) inX inY same]
      exact ⟨rfl, rfl⟩
  obtain ⟨b, sorts⟩ := Arrays.exists_sorts _
  exact ⟨_, _, b, made, sorts, (separate.write sorts s).1, rfl⟩

/-! What a call of `write_analyzed_txs` leaves. -/

/-- The stores after the call are those before it, overwritten with the records of its blocks; of the records
with one hash, any may be the one. -/
structure Overwrites (batch : List AnalyzedBlock) (s t : Stores) : Prop where
  old : ∀ hash, (∀ record ∈ batch.flatMap (·.txs), record.hash ≠ hash) → t.txs hash = s.txs hash ∧
    t.txouts hash = s.txouts hash
  new : ∀ record ∈ batch.flatMap (·.txs), record.hash ≠ emptyHash → ∃ one ∈ batch.flatMap (·.txs),
    one.hash = record.hash ∧ t.txs record.hash = some one.analyzedTx
  outputs : ∀ record ∈ batch.flatMap (·.txs), record.hash ≠ emptyHash → ∃ one ∈ batch.flatMap (·.txs),
    one.hash = record.hash ∧ t.txouts record.hash = some one.txOuts
  blockTxs : Holds (fun k v => (k, v) ∈ batch.map fun block => (block.hash, serializedTxhashes block))
    s.blockTxs t.blockTxs
  spends : Holds (fun k v => (k, v) ∈ batch.flatMap blockSpends) s.spends t.spends

variable {batch : List AnalyzedBlock} {blocks : List Block}

/-- The writers of the two transaction stores leave one of the records with a hash. -/
theorem writeSst_txEntries {txs sorted : List SerializedTx} (value : SerializedTx → Bytes)
    (sorts : SortsBy SerializedTx.hash txs sorted) (store : Hash → Option Bytes) :
    (∀ hash, (∀ record ∈ txs, record.hash ≠ hash) → writeSst store (txEntries value sorted) hash = store hash) ∧
      ∀ record ∈ txs, record.hash ≠ emptyHash → ∃ one ∈ txs, one.hash = record.hash ∧
        writeSst store (txEntries value sorted) record.hash = some (value one) := by
  have holds := writeSst_holds (Arrays.txEntries_strict value sorts.2) store
  constructor
  · refine fun hash absent => (holds hash).2 fun v member => ?_
    obtain ⟨record, kept, same, _⟩ := Arrays.mem_txEntries.mp member
    exact absent record (sorts.1.mem_iff.mp (skipRepeats_subset _ kept)) same
  · intro record member nonzero
    obtain ⟨one, kept, same⟩ := skipRepeats_keys SerializedTx.hash (sorts.1.mem_iff.mpr member) nonzero
    exact ⟨one, sorts.1.mem_iff.mp (skipRepeats_subset _ kept), same,
      (holds record.hash).1 _ (Arrays.mem_txEntries.mpr ⟨one, kept, same, rfl⟩)⟩

theorem overwrites_of_writes (blockTxs : (batch.map (·.hash)).Nodup)
    (spends : ((batch.flatMap blockSpends).map Prod.fst).Nodup) (written : WriteAnalyzedTxs p batch s t) :
    Overwrites batch s t := by
  obtain ⟨a, b, result, sorts, rfl⟩ := written
  obtain ⟨amends, _, shape⟩ := Outcome.bind_eq_ok.mp result
  cases shape
  have txs := writeSst_txEntries (·.analyzedTx) sorts.collapsed s.txs
  have txouts := writeSst_txEntries (·.txOuts) sorts.collapsed s.txouts
  refine ⟨fun hash absent => ⟨txs.1 hash absent, txouts.1 hash absent⟩, txs.2, txouts.2, ?_,
    Arrays.holds_pairs spends sorts.spends _⟩
  refine Arrays.holds_pairs ?_ sorts.blockTxs _
  rw [List.map_map]
  exact blockTxs

theorem overwrites_of_storesBatch (stored : StoresBatch p batch s t) : Overwrites batch s t := by
  obtain ⟨a, b, result, sorts, increasing, rfl⟩ := stored
  have blockTxs := sorts.blockTxs.strictKeys_iff.mp increasing.blockTxs
  have spends := sorts.spends.strictKeys_iff.mp increasing.spends
  have written : WriteAnalyzedTxs p batch s (s.write b) := ⟨a, b, result, sorts, rfl⟩
  obtain ⟨amends, _, shape⟩ := Outcome.bind_eq_ok.mp result
  cases shape
  rw [List.map_map] at blockTxs
  exact overwrites_of_writes blockTxs spends written

/-- A block has its records when no other record in the batch has one of its hashes. -/
theorem Overwrites.recorded (writes : Overwrites batch s t) (analyzes : AnalyzesBlock p scripts block analyzed)
    (inBatch : analyzed ∈ batch) (own : ∀ record ∈ analyzed.txs, ∀ other ∈ batch.flatMap (·.txs),
      other.hash = record.hash → other = record) (nonzero : ∀ tx ∈ block.txs, tx.hash ≠ emptyHash) :
    Recorded p scripts t block := by
  refine ⟨analyzed, analyzes, fun record member => ?_, ?_, fun spend member => ?_⟩
  · obtain ⟨tx, inBlock, each⟩ := exists_left analyzes.2 member
    have named : record.hash ≠ emptyHash := each.hash ▸ nonzero tx inBlock
    have written : record ∈ batch.flatMap (·.txs) := List.mem_flatMap.mpr ⟨analyzed, inBatch, member⟩
    obtain ⟨one, inOne, sameOne, atTxs⟩ := writes.new record written named
    obtain ⟨other, inOther, sameOther, atTxouts⟩ := writes.outputs record written named
    exact ⟨own record member one inOne sameOne ▸ atTxs, own record member other inOther sameOther ▸ atTxouts⟩
  · exact (writes.blockTxs _).1 _ (List.mem_map.mpr ⟨analyzed, inBatch, by rw [analyzes.1]⟩)
  · exact (writes.spends _).1 _ (List.mem_flatMap.mpr ⟨analyzed, inBatch, member⟩)

/-- The records of a block below stay. -/
theorem Recorded.keep (recorded : Recorded p scripts s earlier) (apart : ∀ block ∈ blocks, earlier.Apart block)
    (analyzes : List.Forall₂ (AnalyzesBlock p scripts) blocks batch) (writes : Overwrites batch s t) :
    Recorded p scripts t earlier := by
  obtain ⟨before, analyzesEarlier, txs, blockTxs, spends⟩ := recorded
  refine ⟨before, analyzesEarlier, fun record member => ?_, ?_, fun spend member => ?_⟩
  · obtain ⟨tx, inEarlier, each⟩ := exists_left analyzesEarlier.2 member
    have absent : ∀ other ∈ batch.flatMap (·.txs), other.hash ≠ record.hash := by
      intro other written same
      obtain ⟨analyzed, inBatch, inAnalyzed⟩ := List.mem_flatMap.mp written
      obtain ⟨block, inBlocks, analyzesBlock⟩ := exists_left analyzes inBatch
      obtain ⟨tx', inBlock, each'⟩ := exists_left analyzesBlock.2 inAnalyzed
      rw [each.hash, each'.hash] at same
      exact (apart block inBlocks).txs tx inEarlier tx' inBlock same.symm
    obtain ⟨atTxs, atTxouts⟩ := txs record member
    obtain ⟨sameTxs, sameTxouts⟩ := writes.old record.hash absent
    exact ⟨sameTxs.trans atTxs, sameTxouts.trans atTxouts⟩
  · refine ((writes.blockTxs _).2 fun v written => ?_).trans blockTxs
    obtain ⟨analyzed, inBatch, same⟩ := List.mem_map.mp written
    obtain ⟨block, inBlocks, analyzesBlock⟩ := exists_left analyzes inBatch
    refine (apart block inBlocks).blocks ?_
    rw [← analyzesBlock.1, ← (Prod.mk.inj same).1]
  · refine ((writes.spends _).2 fun v written => ?_).trans (spends spend member)
    have old : earlier.Spends spend.1 spend.2 := analyzesEarlier.mem_blockSpends.mp member
    obtain ⟨analyzed, inBatch, inAnalyzed⟩ := List.mem_flatMap.mp written
    obtain ⟨block, inBlocks, analyzesBlock⟩ := exists_left analyzes inBatch
    have new := analyzesBlock.mem_blockSpends.mp inAnalyzed
    exact (apart block inBlocks).outpoints _ old.mem_outpoints new.mem_outpoints

theorem Overwrites.spends_cases (writes : Overwrites batch s t)
    (analyzes : List.Forall₂ (AnalyzesBlock p scripts) blocks batch) {outpoint : ByteArr 36} {value : Bytes}
    (found : t.spends outpoint = some value) :
    s.spends outpoint = some value ∨ ∃ block ∈ blocks, block.Spends outpoint value := by
  by_cases written : ∃ v, (outpoint, v) ∈ batch.flatMap blockSpends
  · obtain ⟨v, member⟩ := written
    have same := found.symm.trans ((writes.spends outpoint).1 v member)
    cases same
    obtain ⟨analyzed, inBatch, inAnalyzed⟩ := List.mem_flatMap.mp member
    obtain ⟨block, inBlocks, analyzesBlock⟩ := exists_left analyzes inBatch
    exact Or.inr ⟨block, inBlocks, analyzesBlock.mem_blockSpends.mp inAnalyzed⟩
  · rw [(writes.spends outpoint).2 (not_exists.mp written)] at found
    exact Or.inl found

/-- The only block of a call has its records. -/
theorem Overwrites.recorded_single (writes : Overwrites [analyzed] s t) (analyzes : AnalyzesBlock p scripts block analyzed)
    (distinct : (block.txs.map (·.hash)).Nodup) (nonzero : ∀ tx ∈ block.txs, tx.hash ≠ emptyHash) :
    Recorded p scripts t block := by
  refine writes.recorded analyzes List.mem_cons_self (fun record member other written same => ?_) nonzero
  rw [List.flatMap_singleton] at written
  exact List.inj_on_of_nodup_map (analyzes.hashes ▸ distinct) written member same

end Bitlens

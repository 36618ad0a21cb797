import Bitlens.AppliedBlocks
import Bitlens.BlockServing
import Bitlens.Addresses

namespace Bitlens
open Lib

/-! What a batch writes to the index of addresses. -/

/-- A transaction with the outputs that it spends. -/
structure KnownTx where
  tx : Tx
  dependencies : List TxOut
  count : dependencies.length = tx.txinCount

structure KnownBlock where
  header : BlockHeaderOwned
  txs : List KnownTx

/-- The timestamp as `analyze_tx` gets it. -/
def KnownBlock.timestamp (block : KnownBlock) : UInt64 :=
  block.header.timestamp.toUInt64

/-- The outputs that the transaction spends and those that it pays to. -/
def KnownTx.touched (known : KnownTx) : List TxOut :=
  known.dependencies ++ known.tx.txouts

/-- One key for each touched output whose script has an address. -/
def KnownTx.keys (timestamp : UInt64) (known : KnownTx) : List Bytes :=
  known.touched.filterMap fun txout => getAddressFromScriptCopyIntoArenaWithTxhash txout.script known.tx.hash timestamp

/-- The keys of a block in the index, once for each of its transactions. -/
def KnownBlock.keys (block : KnownBlock) : List Bytes :=
  block.txs.flatMap fun known => (known.keys block.timestamp).dedup

/-- A batch with a repeated key is not ingested. -/
def Ingested (batch : List KnownBlock) : Prop :=
  (batch.flatMap KnownBlock.keys).Nodup

instance (batch : List KnownBlock) : Decidable (Ingested batch) :=
  inferInstanceAs (Decidable (List.Nodup _))

/-- `analyze_tx` makes the record of the transaction, and its amends are those that
`serialize_address_amends` makes. -/
def AnalyzesKnown (p : Profile) (block : KnownBlock) (known : KnownTx) (record : SerializedTx) : Prop :=
  ∃ scripts : Scripts, analyzeTx p scripts block.header.hash known.tx known.dependencies block.timestamp = .ok record ∧
    SerializesAddressAmends p known.tx known.dependencies block.timestamp record.addressAmends

def AnalyzesKnownBlock (p : Profile) (block : KnownBlock) (analyzed : AnalyzedBlock) : Prop :=
  analyzed.hash = block.header.hash ∧ List.Forall₂ (AnalyzesKnown p block) block.txs analyzed.txs

/-- Analysing a batch and writing it. -/
def IndexesBatch (p : Profile) (s : Stores) (batch : List KnownBlock) (t : Stores) : Prop :=
  ∃ analyzed, List.Forall₂ (AnalyzesKnownBlock p) batch analyzed ∧ WriteAnalyzedTxs p analyzed s t

/-- Stores that `write_analyzed_txs` filled with these batches. -/
def IndexedBy (p : Profile) (history : List (List KnownBlock)) (s : Stores) : Prop :=
  Run (IndexesBatch p) .empty history s

variable {p : Profile}

/-! The keys of a transaction. -/

theorem keys_of_spentAmends {txhash : Hash} {timestamp : UInt64} {txout : TxOut} {amends : List (Bytes × Int64)}
    (made : spentAmends p txhash timestamp txout = .ok amends) :
    amends.map Prod.fst = (getAddressFromScriptCopyIntoArenaWithTxhash txout.script txhash timestamp).toList := by
  unfold spentAmends at made
  split at made
  · next addressBytes key =>
    obtain ⟨delta, _, shape⟩ := Outcome.bind_eq_ok.mp made
    cases shape
    rw [key]
    rfl
  · next key =>
    cases made
    rw [key]
    rfl

theorem keys_of_addressAmends {known : KnownTx} {timestamp : UInt64} {amends : List (Bytes × Int64)}
    (result : addressAmends p known.tx known.dependencies timestamp = .ok amends) :
    (amends.map Prod.fst).Perm (known.keys timestamp) := by
  obtain ⟨spent, spends, shape⟩ := Outcome.bind_eq_ok.mp result
  cases shape
  have spentKeys := @Outcome.perm_of_flatMapM _ _ _ _ Eq _ Prod.fst _ _ _ _ (List.forall₂_refl _)
    (fun c x ys same made => by rw [same]; exact .of_eq (keys_of_spentAmends made)) spends
  have paidKeys : ∀ txouts : List TxOut, (txouts.filterMap fun txout =>
      (getAddressFromScriptCopyIntoArenaWithTxhash txout.script known.tx.hash timestamp).map (·, txout.value.toInt64)).map
        Prod.fst = txouts.filterMap fun txout =>
          getAddressFromScriptCopyIntoArenaWithTxhash txout.script known.tx.hash timestamp := by
    intro txouts
    rw [List.map_filterMap]
    refine List.filterMap_congr fun txout _ => ?_
    rw [Option.map_map]
    exact Option.map_id'
  rw [List.map_append, paidKeys, KnownTx.keys, KnownTx.touched, List.filterMap_append]
  refine List.Perm.append_right _ ?_
  rw [List.filterMap_eq_flatMap_toList]
  exact spentKeys

/-- The capacity that is counted is the number of keys. -/
theorem length_keys (known : KnownTx) (timestamp : UInt64) :
    (known.keys timestamp).length = amendsCount known.tx known.dependencies := by
  rw [KnownTx.keys, KnownTx.touched, List.length_filterMap_eq_countP, List.countP_append, amendsCount]
  simp only [isSome_address]
  by_cases coinbase : known.tx.isCoinbase = true
  · have count := known.count
    rw [Tx.txinCount, if_pos coinbase] at count
    rw [List.length_eq_zero_iff.mp count, if_pos coinbase, List.countP_nil]
  · rw [if_neg coinbase]

/-- The amends of a transaction are sorted and have its keys. -/
theorem keys_of_serializesAddressAmends {known : KnownTx} {timestamp : UInt64} {result : Option (List (Bytes × Int64))}
    (serializes : SerializesAddressAmends p known.tx known.dependencies timestamp result) :
    (result.getD []).Pairwise (fun a b => a.1 ≤ b.1) ∧ ((result.getD []).map Prod.fst).Perm (known.keys timestamp) := by
  rw [SerializesAddressAmends] at serializes
  split at serializes
  · next nothing =>
    rw [serializes, List.length_eq_zero_iff.mp ((length_keys known timestamp).trans nothing)]
    exact ⟨.nil, .nil⟩
  · obtain ⟨amends, sorted, made, _, sorts, rfl⟩ := serializes
    exact ⟨sorts.2, (sorts.1.map Prod.fst).trans (keys_of_addressAmends made)⟩

/-! The keys of a batch. -/

/-- A state of the merging loop: what is left is sorted and not below the merged pairs,
whose keys fall. -/
structure Merging (merged amends : List (Bytes × Int64)) : Prop where
  sorted : amends.Pairwise fun a b => a.1 ≤ b.1
  falling : merged.Pairwise fun a b => b.1 < a.1
  below : ∀ a ∈ merged, ∀ b ∈ amends, a.1 ≤ b.1

/-- A pair is put before the merged ones when its key is above theirs. -/
theorem Merging.push {merged amends : List (Bytes × Int64)} {amend pair : Bytes × Int64}
    (merging : Merging merged (amend :: amends)) (same : pair.1 = amend.1) (above : ∀ a ∈ merged, a.1 < amend.1) :
    Merging (pair :: merged) amends := by
  obtain ⟨least, sorted⟩ := List.pairwise_cons.mp merging.sorted
  refine ⟨sorted, List.pairwise_cons.mpr ⟨fun a member => ?_, merging.falling⟩, ?_⟩
  · rw [same]
    exact above a member
  · intro a member b later
    rcases List.mem_cons.mp member with rfl | older
    · rw [same]
      exact least b later
    · exact merging.below a older b (List.mem_cons_of_mem _ later)

theorem Merging.tail {merged amends : List (Bytes × Int64)} {last : Bytes × Int64}
    (merging : Merging (last :: merged) amends) : Merging merged amends :=
  ⟨merging.sorted, (List.pairwise_cons.mp merging.falling).2, fun a member => merging.below a (List.mem_cons_of_mem _ member)⟩

/-- Merging keeps every key of a sorted list once. -/
theorem keys_of_mergeAmends {merged amends result : List (Bytes × Int64)} (made : mergeAmends p merged amends = .ok result)
    (merging : Merging merged amends) :
    (result.map Prod.fst).Nodup ∧
      ∀ key, key ∈ result.map Prod.fst ↔ key ∈ merged.map Prod.fst ∨ key ∈ amends.map Prod.fst := by
  induction amends generalizing merged with
  | nil =>
    rw [mergeAmends] at made
    cases made
    rw [List.map_reverse, List.nodup_reverse]
    refine ⟨List.pairwise_map.mpr (merging.falling.imp fun fall => ne_of_gt fall), fun key => ?_⟩
    rw [List.mem_reverse, List.map_nil]
    simp only [List.not_mem_nil, or_false]
  | cons amend amends ih =>
    cases merged with
    | nil =>
      rw [mergeAmends] at made
      obtain ⟨nodup, keys⟩ := ih made (merging.push rfl fun a member => (List.not_mem_nil member).elim)
      refine ⟨nodup, fun key => ?_⟩
      rw [keys]
      simp only [List.map_cons, List.map_nil, List.mem_cons, List.not_mem_nil, or_false, false_or]
    | cons last merged =>
      have fall := (List.pairwise_cons.mp merging.falling).1
      rw [mergeAmends] at made
      split at made
      · next same =>
        obtain ⟨value, _, made⟩ := Outcome.bind_eq_ok.mp made
        obtain ⟨nodup, keys⟩ := ih made (merging.tail.push rfl fun a member => by rw [← same]; exact fall a member)
        refine ⟨nodup, fun key => ?_⟩
        rw [keys]
        simp only [List.map_cons, List.mem_cons, same]
        tauto
      · next other =>
        have first : last.1 < amend.1 :=
          lt_of_le_of_ne (merging.below last List.mem_cons_self amend List.mem_cons_self) other
        obtain ⟨nodup, keys⟩ := ih made (merging.push rfl fun a member => by
          rcases List.mem_cons.mp member with rfl | older
          · exact first
          · exact (fall a older).trans first)
        refine ⟨nodup, fun key => ?_⟩
        rw [keys]
        simp only [List.map_cons, List.mem_cons]
        tauto

theorem keys_of_tx {block : KnownBlock} {known : KnownTx} {record : SerializedTx} {merged : List (Bytes × Int64)}
    (analyzes : AnalyzesKnown p block known record) (made : mergeAmends p [] (record.addressAmends.getD []) = .ok merged) :
    (merged.map Prod.fst).Perm (known.keys block.timestamp).dedup := by
  obtain ⟨_, _, serializes⟩ := analyzes
  obtain ⟨sorted, keys⟩ := keys_of_serializesAddressAmends serializes
  obtain ⟨nodup, members⟩ := keys_of_mergeAmends made ⟨sorted, .nil, fun _ member => (List.not_mem_nil member).elim⟩
  rw [List.perm_ext_iff_of_nodup nodup (List.nodup_dedup _)]
  intro key
  rw [members, List.mem_dedup, ← keys.mem_iff]
  simp only [List.map_nil, List.not_mem_nil, false_or]

theorem keys_of_block {block : KnownBlock} {analyzed : AnalyzedBlock} {pairs : List (Bytes × Bytes)}
    (analyzes : AnalyzesKnownBlock p block analyzed) (made : blockAmends p analyzed = .ok pairs) :
    (pairs.map Prod.fst).Perm block.keys := by
  refine Outcome.perm_of_flatMapM analyzes.2 ?_ made
  intro known record pairs analyzesTx made
  obtain ⟨merged, result, shape⟩ := Outcome.bind_eq_ok.mp made
  cases shape
  rw [List.map_map]
  exact keys_of_tx analyzesTx result

theorem keys_of_arrays {batch : List KnownBlock} {analyzed : List AnalyzedBlock} {a : Arrays}
    (analyzes : List.Forall₂ (AnalyzesKnownBlock p) batch analyzed) (made : arrays p analyzed = .ok a) :
    (a.amends.map Prod.fst).Perm (batch.flatMap KnownBlock.keys) := by
  obtain ⟨amends, collected, shape⟩ := Outcome.bind_eq_ok.mp made
  cases shape
  exact Outcome.perm_of_flatMapM analyzes (fun _ _ _ analyzesBlock result => keys_of_block analyzesBlock result) collected

/-- The value of a block for a change. -/
def amendValue (blockHash : Hash) (delta : Int64) : Bytes :=
  blockHash.1 ++ leBytes 8 delta.toUInt64.toNat

/-- The block writes the key with this value for one of its transactions. -/
def KnownBlock.Amends (block : KnownBlock) (key value : Bytes) : Prop :=
  (∃ known ∈ block.txs, key ∈ known.keys block.timestamp) ∧ ∃ delta, value = amendValue block.header.hash delta

theorem amends_of_arrays {batch : List KnownBlock} {analyzed : List AnalyzedBlock} {a : Arrays}
    (analyzes : List.Forall₂ (AnalyzesKnownBlock p) batch analyzed) (made : arrays p analyzed = .ok a) {key value : Bytes}
    (member : (key, value) ∈ a.amends) : ∃ block ∈ batch, block.Amends key value := by
  obtain ⟨amends, collected, shape⟩ := Outcome.bind_eq_ok.mp made
  cases shape
  obtain ⟨ab, inAnalyzed, pairs, ofBlock, inPairs⟩ := Outcome.mem_of_flatMapM collected member
  obtain ⟨block, inBatch, sameHash, txs⟩ := exists_left analyzes inAnalyzed
  obtain ⟨record, inRecords, pairs, ofTx, inPairs⟩ := Outcome.mem_of_flatMapM ofBlock inPairs
  obtain ⟨known, inTxs, analyzesTx⟩ := exists_left txs inRecords
  obtain ⟨merged, result, shape⟩ := Outcome.bind_eq_ok.mp ofTx
  cases shape
  obtain ⟨⟨key', delta⟩, inMerged, same⟩ := List.mem_map.mp inPairs
  cases same
  have inKeys : key ∈ (known.keys block.timestamp).dedup :=
    (keys_of_tx analyzesTx result).mem_iff.mp (List.mem_map.mpr ⟨_, inMerged, rfl⟩)
  refine ⟨block, inBatch, ⟨known, inTxs, List.mem_dedup.mp inKeys⟩, delta, ?_⟩
  rw [amendValue, sameHash]

theorem KnownBlock.mem_keys {block : KnownBlock} {key : Bytes} :
    key ∈ block.keys ↔ ∃ known ∈ block.txs, key ∈ known.keys block.timestamp := by
  simp only [KnownBlock.keys, List.mem_flatMap, List.mem_dedup]

/-! The contents of the store. -/

variable {s t : Stores} {batch : List KnownBlock} {history : List (List KnownBlock)} {key value : Bytes}

/-- A batch leaves a key as it was, or gives it the value of one of its blocks if it is ingested. -/
theorem IndexesBatch.cases (step : IndexesBatch p s batch t) (key : Bytes) :
    t.amends key = s.amends key ∨
      Ingested batch ∧ ∃ block ∈ batch, ∃ value, t.amends key = some value ∧ block.Amends key value := by
  obtain ⟨analyzed, analyzes, a, b, made, sorts, rfl⟩ := step
  have keys := keys_of_arrays analyzes made
  by_cases ingested : Ingested batch
  · have holds := Arrays.holds_pairs (keys.nodup_iff.mpr ingested) sorts.amends s.amends
    by_cases present : ∃ value, (key, value) ∈ a.amends
    · obtain ⟨value, inArray⟩ := present
      obtain ⟨block, inBatch, amends⟩ := amends_of_arrays analyzes made inArray
      exact Or.inr ⟨ingested, block, inBatch, value, (holds key).1 value inArray, amends⟩
    · exact Or.inl ((holds key).2 fun value inArray => present ⟨value, inArray⟩)
  · have strict : ¬ StrictKeys b.amends := by
      rw [sorts.amends.strictKeys_iff, keys.nodup_iff]
      exact ingested
    exact Or.inl (congrFun (if_neg strict) key)

/-- An ingested batch gives each of its keys the value of the block that has it. -/
theorem IndexesBatch.written (step : IndexesBatch p s batch t) (ingested : Ingested batch) {block : KnownBlock}
    (inBatch : block ∈ batch) (member : key ∈ block.keys) :
    ∃ delta, t.amends key = some (amendValue block.header.hash delta) := by
  obtain ⟨analyzed, analyzes, a, b, made, sorts, rfl⟩ := step
  have keys := keys_of_arrays analyzes made
  have inKeys : key ∈ batch.flatMap KnownBlock.keys := List.mem_flatMap.mpr ⟨block, inBatch, member⟩
  obtain ⟨⟨_, value⟩, inArray, rfl⟩ := List.mem_map.mp (keys.mem_iff.mpr inKeys)
  obtain ⟨other, inBatch', writes, delta, rfl⟩ := amends_of_arrays analyzes made inArray
  have same := eq_of_mem_flatMap ingested inBatch inBatch' member (KnownBlock.mem_keys.mpr writes)
  rw [same]
  have holds := Arrays.holds_pairs (keys.nodup_iff.mpr ingested) sorts.amends s.amends
  exact ⟨delta, (holds _).1 _ inArray⟩

/-- Every stored pair is one that a block of an ingested batch writes. -/
theorem IndexedBy.origin (run : IndexedBy p history s) (found : s.amends key = some value) :
    ∃ batch ∈ history, Ingested batch ∧ ∃ block ∈ batch, block.Amends key value := by
  induction run with
  | nil => cases found
  | @snoc history batch s t _ step ih =>
    rcases step.cases key with same | ⟨ingested, block, inBatch, value', found', amends⟩
    · obtain ⟨older, inHistory, origin⟩ := ih (same ▸ found)
      exact ⟨older, List.mem_append_left _ inHistory, origin⟩
    · cases found.symm.trans found'
      exact ⟨batch, List.mem_append_right _ (List.mem_singleton.mpr rfl), ingested, block, inBatch, amends⟩

/-- Every key of an ingested batch stays in the store. -/
theorem IndexedBy.present (run : IndexedBy p history s) (inHistory : batch ∈ history) (ingested : Ingested batch)
    (member : key ∈ batch.flatMap KnownBlock.keys) : s.amends key ≠ none := by
  induction run with
  | nil => cases inHistory
  | @snoc history last s t _ step ih =>
    rcases List.mem_append.mp inHistory with older | new
    · rcases step.cases key with same | ⟨_, _, _, value, found, _⟩
      · rw [same]
        exact ih older
      · rw [found]
        exact Option.some_ne_none value
    · cases List.mem_singleton.mp new
      obtain ⟨block, inBatch, inBlock⟩ := List.mem_flatMap.mp member
      obtain ⟨delta, found⟩ := step.written ingested inBatch inBlock
      rw [found]
      exact Option.some_ne_none _

/-- What an iterator over the store yields between two bounds. -/
def Iterates (s : Stores) (iterate : Bytes → Bytes → List (Bytes × Bytes)) : Prop :=
  ∀ lower upper, Lists s.amends lower upper (iterate lower upper)

theorem IndexedBy.exists_iterates (run : IndexedBy p history s) : ∃ iterate, Iterates s iterate := by
  have finite : ∀ key, s.amends key ≠ none → key ∈ history.flatten.flatMap KnownBlock.keys := by
    intro key present
    obtain ⟨value, found⟩ := Option.ne_none_iff_exists'.mp present
    obtain ⟨batch, inHistory, _, block, inBatch, written, _⟩ := run.origin found
    exact List.mem_flatMap.mpr ⟨block, List.mem_flatten.mpr ⟨batch, inHistory, inBatch⟩, KnownBlock.mem_keys.mpr written⟩
  exact Classical.skolem.mp fun lower => Classical.skolem.mp fun upper => exists_lists finite

/-! When the amends can be made. -/

theorem toInt64_eq_minValue {value : UInt64} : value.toInt64 = Int64.minValue ↔ value = 0x8000000000000000 := by
  constructor
  · intro least
    have same := congrArg Int64.toUInt64 least
    rwa [UInt64.toUInt64_toInt64] at same
  · rintro rfl
    rfl

/-- An output that can be spent without a panic: its value is not the one whose `i64` has no
negative, or nobody is paid. -/
def Deductible (p : Profile) (txout : TxOut) : Prop :=
  p = .dev → scriptHasAddress txout.script = true → txout.value ≠ 0x8000000000000000

theorem exists_spentAmends {txhash : Hash} {timestamp : UInt64} {txout : TxOut} :
    (∃ amends, spentAmends p txhash timestamp txout = .ok amends) ↔ Deductible p txout := by
  have isSome := @isSome_address txout.script txhash timestamp
  unfold spentAmends Deductible
  cases key : getAddressFromScriptCopyIntoArenaWithTxhash txout.script txhash timestamp with
  | none =>
    rw [key] at isSome
    refine iff_of_true ⟨[], rfl⟩ fun _ address => ?_
    rw [← isSome] at address
    cases address
  | some addressBytes =>
    rw [key] at isSome
    dsimp only
    rw [← isSome]
    by_cases least : p = .dev ∧ txout.value.toInt64 = Int64.minValue
    · rw [negI64, if_pos least]
      refine iff_of_false ?_ fun deductible => deductible least.1 rfl (toInt64_eq_minValue.mp least.2)
      rintro ⟨_, absurd⟩
      cases absurd
    · rw [negI64, if_neg least]
      exact iff_of_true ⟨_, rfl⟩ fun dev _ same => least ⟨dev, toInt64_eq_minValue.mpr same⟩

/-- `serialize_address_amends` returns unless it negates the least `i64`. -/
theorem exists_serializes (known : KnownTx) (timestamp : UInt64) :
    (∃ result, SerializesAddressAmends p known.tx known.dependencies timestamp result) ↔
      ∀ txout ∈ known.dependencies, Deductible p txout := by
  have loop := @Outcome.exists_flatMapM _ _ (spentAmends p known.tx.hash timestamp) known.dependencies
  simp only [exists_spentAmends] at loop
  by_cases nothing : amendsCount known.tx known.dependencies = 0
  · refine iff_of_true ⟨none, by rw [SerializesAddressAmends, if_pos nothing]⟩ fun txout spent _ address => ?_
    -- no output has an address
    have none : known.keys timestamp = [] := List.length_eq_zero_iff.mp ((length_keys known timestamp).trans nothing)
    rw [KnownTx.keys, List.filterMap_eq_nil_iff] at none
    rw [← @isSome_address txout.script known.tx.hash timestamp, none txout (List.mem_append_left _ spent)] at address
    cases address
  constructor
  · rintro ⟨result, serializes⟩
    rw [SerializesAddressAmends, if_neg nothing] at serializes
    obtain ⟨amends, _, made, _⟩ := serializes
    obtain ⟨spent, spends, _⟩ := Outcome.bind_eq_ok.mp made
    exact loop.mp ⟨spent, spends⟩
  · intro deductible
    obtain ⟨amends, made⟩ : ∃ amends, addressAmends p known.tx known.dependencies timestamp = .ok amends := by
      obtain ⟨spent, spends⟩ := loop.mpr deductible
      rw [addressAmends, spends]
      exact ⟨_, rfl⟩
    obtain ⟨sorted, sorts⟩ := exists_sortsBy Prod.fst amends
    have count : amends.length = amendsCount known.tx known.dependencies := by
      rw [← length_keys known timestamp, ← (keys_of_addressAmends made).length_eq, List.length_map]
    refine ⟨some sorted, ?_⟩
    rw [SerializesAddressAmends, if_neg nothing]
    exact ⟨amends, sorted, made, count.le, sorts, rfl⟩

theorem exists_indexesBatch (s : Stores) (batch : List KnownBlock) : ∃ t, IndexesBatch .release s batch t := by
  have record : ∀ (block : KnownBlock) (known : KnownTx), ∃ record, AnalyzesKnown .release block known record := by
    intro block known
    obtain ⟨amends, serializes⟩ := (@exists_serializes .release known block.timestamp).mpr fun _ _ impossible => by
      cases impossible
    let scripts : Scripts := ⟨fun _ _ => .ok 0, fun _ _ _ => .ok amends⟩
    obtain ⟨record, analyzed⟩ := (@analyzeTx_release scripts block.header.hash known.tx known.dependencies
      block.timestamp).mpr ⟨⟨0, rfl⟩, amends, rfl⟩
    refine ⟨record, scripts, analyzed, ?_⟩
    have same := (analyzeTx_parts analyzed).2
    cases same
    exact serializes
  have analyzes : ∀ block ∈ batch, ∃ analyzed, AnalyzesKnownBlock .release block analyzed := by
    intro block _
    obtain ⟨records, analyzed⟩ := forall₂_of_forall_exists fun known (_ : known ∈ block.txs) => record block known
    exact ⟨⟨block.header.hash, records⟩, rfl, analyzed⟩
  obtain ⟨analyzed, analyzes⟩ := forall₂_of_forall_exists analyzes
  have made : ∃ a, arrays .release analyzed = .ok a := by
    obtain ⟨amends, collected⟩ := Outcome.exists_flatMapM.mpr fun (ab : AnalyzedBlock) (_ : ab ∈ analyzed) =>
      show ∃ pairs, blockAmends .release ab = .ok pairs from Outcome.exists_flatMapM.mpr fun tx _ => by
        obtain ⟨merged, result⟩ := mergeAmends_release [] (tx.addressAmends.getD [])
        rw [result]
        exact ⟨_, rfl⟩
    rw [arrays, collected]
    exact ⟨_, rfl⟩
  obtain ⟨a, made⟩ := made
  obtain ⟨b, sorts⟩ := Arrays.exists_sorts a
  exact ⟨s.write b, analyzed, analyzes, a, b, made, sorts, rfl⟩

theorem exists_indexedBy (history : List (List KnownBlock)) : ∃ s, IndexedBy .release history s := by
  induction history using List.reverseRecOn with
  | nil => exact ⟨.empty, .nil⟩
  | append_singleton history batch ih =>
    obtain ⟨s, run⟩ := ih
    obtain ⟨t, step⟩ := exists_indexesBatch s batch
    exact ⟨t, run.snoc step⟩

end Bitlens

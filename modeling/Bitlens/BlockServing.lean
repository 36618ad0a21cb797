import Bitlens.BatchedWrites
import Bitlens.Payload
import Bitlens.PrefixCode
import Bitlens.StoredTx
import Bitlens.Lib.Pairs
import Bitlens.Lib.Sha256

namespace Bitlens
open Lib

/-- `deserialize_borrowed` accepts the bytes of a packet as the block. -/
def Accepts (sha256 : Bytes → Hash) (bytes : Bytes) (block : Block) : Prop :=
  bytes.length ≤ maxPacketSize ∧ ∃ arena consumed read used,
    deserializeBlock (m := Parser) sha256 bytes arena consumed = .ok ((block, read), used)

/-- The stores that `write_analyzed_txs` leaves when no key is refused. -/
def StoresBatch (p : Profile) (analyzed : List AnalyzedBlock) (s t : Stores) : Prop :=
  ∃ a b, arrays p analyzed = .ok a ∧ Sorts a b ∧ b.Increasing ∧ t = s.write b

def Stores.empty : Stores := ⟨fun _ => none, fun _ => none, fun _ => none, fun _ => none, fun _ => none⟩

/-- Stores that earlier batches have filled. -/
def FilledBy (p : Profile) (history : List (List AnalyzedBlock)) (s : Stores) : Prop :=
  Run (fun s blocks t => WriteAnalyzedTxs p blocks s t) .empty history s

def Block.withoutWitness (block : Block) : Block :=
  { block with txs := block.txs.map Tx.withoutWitness }

/-- Both answers of `get_block` for the block with these bytes. -/
def Serves (c : Chain) (t : Stores) (block : Block) (bytes : Bytes) : Prop :=
  (∃ owned, getBlock c t block.header.hash true = .ok owned ∧ serializeBlock owned = bytes) ∧
    ∃ owned, getBlock c t block.header.hash false = .ok owned ∧
      serializeBlock owned = serializeBlock block.withoutWitness

/-- No transaction of the block has outputs or the zero hash, and those of the batch
with its hash agree with it on the rest. -/
def Recoverable (batch : List Block) (block : Block) : Prop :=
  ∀ tx ∈ block.txs, tx.txouts = [] ∧ tx.hash ≠ emptyHash ∧
    ∀ other ∈ batch.flatMap (·.txs), other.hash = tx.hash → tx.SameRecord other

variable {p : Profile} {scripts : Scripts} {sha256 : Bytes → Hash} {c : Chain} {s t : Stores} {bytes : Bytes}

theorem Accepts.readable {block : Block} (accepts : Accepts sha256 bytes block) : ∀ tx ∈ block.txs, tx.Readable := by
  obtain ⟨small, arena, consumed, read, used, result⟩ := accepts
  rw [maxPacketSize] at small
  obtain ⟨_, complete, written⟩ := (@Agrees.deserializeBlock bytes sha256 (by omega)).of_ok result
  dsimp only at written
  intro tx member
  have within := @length_le_flatMap_of_mem _ serializeTx _ tx member
  exact (complete tx member).readable (by omega)

/-- No batch writes the zero hash. -/
theorem FilledBy.zero_absent {history : List (List AnalyzedBlock)} (filled : FilledBy p history s) :
    s.txs emptyHash = none := by
  refine Run.invariant (P := fun s => s.txs emptyHash = none) filled rfl fun s blocks t absent write => ?_
  obtain ⟨a, b, _, sorts, rfl⟩ := write
  have strict := Arrays.txEntries_strict SerializedTx.analyzedTx sorts.collapsed.2
  refine ((writeSst_holds strict s.txs emptyHash).2 fun v member => ?_).trans absent
  obtain ⟨tx, kept, same, _⟩ := Arrays.mem_txEntries.mp member
  have above := (skipRepeats_strict SerializedTx.hash sorts.collapsed.2 fun tx _ => ByteArr.fill_zero_le tx.hash).1 tx kept
  rw [same] at above
  exact absurd above (lt_irrefl _)

/-! Transactions of a batch and their records. -/

theorem collapsed_of_arrays {analyzed : List AnalyzedBlock} {a : Arrays} (result : arrays p analyzed = .ok a) :
    a.collapsed = analyzed.flatMap (·.txs) ∧ a.blockTxs = analyzed.map fun block => (block.hash, serializedTxhashes block) := by
  obtain ⟨amends, _, shape⟩ := Outcome.bind_eq_ok.mp result
  cases shape
  exact ⟨rfl, rfl⟩

/-- If one result of the sorts is written, every result is. -/
theorem Arrays.Increasing.of_sorts {a b b' : Arrays} (increasing : b.Increasing) (sorts : Sorts a b) (sorts' : Sorts a b') :
    b'.Increasing where
  txs := Arrays.txEntries_strict _ sorts'.collapsed.2
  txouts := Arrays.txEntries_strict _ sorts'.collapsed.2
  blockTxs := sorts'.blockTxs.strictKeys_iff.mpr (sorts.blockTxs.strictKeys_iff.mp increasing.blockTxs)
  spends := sorts'.spends.strictKeys_iff.mpr (sorts.spends.strictKeys_iff.mp increasing.spends)
  amends := sorts'.amends.strictKeys_iff.mpr (sorts.amends.strictKeys_iff.mp increasing.amends)

variable {batch : List Block} {analyzed : List AnalyzedBlock}

theorem record_of_tx (analyzes : List.Forall₂ (AnalyzesBlock p scripts) batch analyzed) {tx : Tx}
    (member : tx ∈ batch.flatMap (·.txs)) :
    ∃ header, ∃ record ∈ analyzed.flatMap (·.txs), AnalyzesTx p scripts header tx record := by
  obtain ⟨block, inBatch, inBlock⟩ := List.mem_flatMap.mp member
  obtain ⟨ab, inAnalyzed, _, txs⟩ := exists_right analyzes inBatch
  obtain ⟨record, inTxs, analyzesTx⟩ := exists_right txs inBlock
  exact ⟨block.header, record, List.mem_flatMap.mpr ⟨ab, inAnalyzed, inTxs⟩, analyzesTx⟩

theorem tx_of_record (analyzes : List.Forall₂ (AnalyzesBlock p scripts) batch analyzed) {record : SerializedTx}
    (member : record ∈ analyzed.flatMap (·.txs)) :
    ∃ header, ∃ tx ∈ batch.flatMap (·.txs), AnalyzesTx p scripts header tx record := by
  obtain ⟨ab, inAnalyzed, inBlock⟩ := List.mem_flatMap.mp member
  obtain ⟨block, inBatch, _, txs⟩ := exists_left analyzes inAnalyzed
  obtain ⟨tx, inTxs, analyzesTx⟩ := exists_left txs inBlock
  exact ⟨block.header, tx, List.mem_flatMap.mpr ⟨block, inBatch, inTxs⟩, analyzesTx⟩

/-- The store gives `other` without its outputs under the hash of `tx`. -/
def Gives (t : Stores) (tx other : Tx) : Prop :=
  ∃ v, getAnalyzedTx t.txs tx.hash = .ok v ∧ v.tx = other.withoutTxouts

/-- The record that the writer keeps is read back under its hash. -/
theorem gives_of_kept {a b : Arrays} (sorts : Sorts a b) {header : BlockHeaderOwned} {tx other : Tx}
    {record : SerializedTx} (analyzes : AnalyzesTx p scripts header other record) (readable : other.Readable)
    (kept : record ∈ skipRepeats SerializedTx.hash emptyHash b.collapsed) (same : other.hash = tx.hash) :
    Gives (s.write b) tx other := by
  have strict := Arrays.txEntries_strict SerializedTx.analyzedTx sorts.collapsed.2
  have entry : (other.hash, record.analyzedTx) ∈ txEntries (·.analyzedTx) b.collapsed :=
    Arrays.mem_txEntries.mpr ⟨record, kept, analyzes.hash, rfl⟩
  have found : (s.write b).txs other.hash = some record.analyzedTx := (writeSst_holds strict s.txs _).1 _ entry
  obtain ⟨v, read, shape, _⟩ := analyzes.getAnalyzedTx readable found
  exact ⟨v, by rw [← same, read], shape⟩

/-- Under every nonzero hash of the batch the store gives a transaction of the batch. -/
theorem exists_gives (analyzes : List.Forall₂ (AnalyzesBlock p scripts) batch analyzed)
    (readable : ∀ tx ∈ batch.flatMap (·.txs), tx.Readable) {a b : Arrays} (result : arrays p analyzed = .ok a)
    (sorts : Sorts a b) {tx : Tx} (member : tx ∈ batch.flatMap (·.txs)) (nonzero : tx.hash ≠ emptyHash) :
    ∃ other ∈ batch.flatMap (·.txs), other.hash = tx.hash ∧ Gives (s.write b) tx other := by
  have collapsed := (collapsed_of_arrays result).1
  obtain ⟨_, record, inAnalyzed, analyzesTx⟩ := record_of_tx analyzes member
  have inB : record ∈ b.collapsed := sorts.collapsed.1.mem_iff.mpr (by rw [collapsed]; exact inAnalyzed)
  obtain ⟨kept, inKept, same⟩ := skipRepeats_keys SerializedTx.hash inB (by rw [analyzesTx.hash]; exact nonzero)
  have inA := sorts.collapsed.1.mem_iff.mp (skipRepeats_subset _ inKept)
  rw [collapsed] at inA
  obtain ⟨_, other, inBatch, analyzesOther⟩ := tx_of_record analyzes inA
  have equal : other.hash = tx.hash := by rw [← analyzesOther.hash, same, analyzesTx.hash]
  exact ⟨other, inBatch, equal, gives_of_kept sorts analyzesOther (readable other inBatch) inKept equal⟩

/-- Some result of the sorts keeps the record of any given transaction. -/
theorem exists_gives_this (analyzes : List.Forall₂ (AnalyzesBlock p scripts) batch analyzed)
    (readable : ∀ tx ∈ batch.flatMap (·.txs), tx.Readable) (stored : StoresBatch p analyzed s t) {tx other : Tx}
    (member : other ∈ batch.flatMap (·.txs)) (same : other.hash = tx.hash) (nonzero : tx.hash ≠ emptyHash) :
    ∃ t', StoresBatch p analyzed s t' ∧ Gives t' tx other := by
  obtain ⟨a, b, result, sorts, increasing, _⟩ := stored
  obtain ⟨_, record, inAnalyzed, analyzesOther⟩ := record_of_tx analyzes member
  obtain ⟨b', sorts', kept⟩ := a.exists_sorts_keeping (by rw [(collapsed_of_arrays result).1]; exact inAnalyzed)
    (by rw [analyzesOther.hash, same]; exact nonzero)
  have again := increasing.of_sorts sorts sorts'
  exact ⟨s.write b', ⟨a, b', result, sorts', again, rfl⟩,
    gives_of_kept sorts' analyzesOther (readable other member) kept same⟩

/-! The block that is put together. -/

theorem getAnalyzedTxs_eq_ok {store : Hash → Option Bytes} {entries : List BlockTxEntry} {vs : List AnalyzedTx} :
    getAnalyzedTxs store entries = .ok vs ↔
      List.Forall₂ (fun hash v => getAnalyzedTx store hash = .ok v) (entries.map (·.hash)) vs := by
  induction entries generalizing vs with
  | nil =>
    rw [getAnalyzedTxs, List.map_nil, List.forall₂_nil_left_iff, Outcome.ok.injEq]
    exact eq_comm
  | cons entry entries ih =>
    rw [getAnalyzedTxs, List.map_cons, List.forall₂_cons_left_iff]
    constructor
    · intro result
      obtain ⟨v, first, result⟩ := Outcome.bind_eq_ok.mp result
      obtain ⟨vs, rest, shape⟩ := Outcome.bind_eq_ok.mp result
      exact ⟨v, vs, first, ih.mp rest, (Outcome.ok.inj shape).symm⟩
    · intro ⟨v, vs, first, rest, shape⟩
      rw [first, Outcome.ok_bind, ih.mpr rest, shape]
      rfl

/-- The header that is known for the block, which may declare another number of transactions. -/
def KnownAs (c : Chain) (block : Block) (n : UInt64) : Prop :=
  ∃ record, c.knownHeaders block.header.hash = some record ∧ record.header = { block.header with txsCount := n }

/-- `get_block` returns the known header with the stored transactions. -/
theorem getBlock_eq_ok {block : Block} {n : UInt64} (known : KnownAs c block n) (small : block.txs.length < 2 ^ 40)
    (analyzes : List.Forall₂ (AnalyzesBlock p scripts) batch analyzed) (member : block ∈ batch)
    (stored : StoresBatch p analyzed s t) {includeWitnessData : Bool} {owned : Block} :
    getBlock c t block.header.hash includeWitnessData = .ok owned ↔
      ∃ vs, List.Forall₂ (fun tx v => getAnalyzedTx t.txs (Tx.hash tx) = .ok v) block.txs vs ∧
        owned = ⟨{ block.header with txsCount := n },
          vs.map fun v => if includeWitnessData then v.tx else v.tx.withoutWitness⟩ := by
  obtain ⟨record, found, header⟩ := known
  obtain ⟨a, b, result, sorts, increasing, rfl⟩ := stored
  obtain ⟨ab, inAnalyzed, hash, txs⟩ := exists_right analyzes member
  have listed : (s.write b).blockTxs ab.hash = some (serializedTxhashes ab) := by
    refine (writeSst_holds increasing.blockTxs s.blockTxs _).1 _ (sorts.blockTxs.1.mem_iff.mpr ?_)
    rw [(collapsed_of_arrays result).2]
    exact List.mem_map.mpr ⟨ab, inAnalyzed, rfl⟩
  have read := getBlockTxEntries_ok listed (by rw [← txs.length_eq]; exact lt_trans small (by decide))
  have sameHashes : (ab.txs.map SerializedTx.entry).map (·.hash) = block.txs.map (·.hash) := by
    rw [List.map_map]
    have equal := (txs.imp fun tx record analyzesTx => (AnalyzesTx.hash analyzesTx).symm).flip
    have lists : List.Forall₂ Eq (ab.txs.map SerializedTx.hash) (block.txs.map Tx.hash) :=
      List.forall₂_map_right_iff.mpr (List.forall₂_map_left_iff.mpr (equal.imp fun record tx same => same.symm))
    rw [List.forall₂_eq_eq_eq] at lists
    exact lists
  rw [hash] at read
  rw [getBlock, found, Outcome.orErr_some, Outcome.ok_bind, read, Outcome.ok_bind, Outcome.bind_eq_ok]
  constructor
  · intro ⟨vs, all, shape⟩
    rw [getAnalyzedTxs_eq_ok, sameHashes, List.forall₂_map_left_iff] at all
    refine ⟨vs, all, ?_⟩
    rw [← Outcome.ok.inj shape, header]
    rfl
  · intro ⟨vs, all, shape⟩
    refine ⟨vs, ?_, ?_⟩
    · rw [getAnalyzedTxs_eq_ok, sameHashes, List.forall₂_map_left_iff]
      exact all
    · rw [shape, header]
      rfl

/-- Headers that differ only in the number of transactions are told apart by it. -/
theorem serializeBlock_inj {header : BlockHeaderOwned} {n : UInt64} {txs txs' : List Tx}
    (same : serializeBlock ⟨{ header with txsCount := n }, txs'⟩ = serializeBlock ⟨header, txs⟩) :
    n = header.txsCount ∧ txs'.flatMap serializeTx = txs.flatMap serializeTx := by
  simp only [serializeBlock, serializeBlockHeader, List.append_assoc, List.append_cancel_left_eq] at same
  obtain ⟨count, _, behind⟩ := (decodes_varint n).append_inj (decodes_varint header.txsCount) same
  exact ⟨count, behind⟩

theorem Tx.SameRecord.of_withoutTxouts {tx other other' : Tx} (record : tx.SameRecord other)
    (same : other.withoutTxouts = other'.withoutTxouts) : tx.SameRecord other' := by
  obtain ⟨version, txins, witnessData, locktime⟩ := record
  exact ⟨(congrArg Tx.version same).symm.trans version, (congrArg Tx.txins same).symm.trans txins,
    (congrArg Tx.witnessData same).symm.trans witnessData, (congrArg Tx.locktime same).symm.trans locktime⟩

/-- Transactions without outputs that are written like the block's are the block's. -/
theorem sameRecords_of_flatMap {txs : List Tx} {vs : List AnalyzedTx}
    (pairs : List.Forall₂ (fun tx v => Tx.Readable tx ∧ ∃ other, Tx.Readable other ∧ AnalyzedTx.tx v = other.withoutTxouts) txs vs)
    (same : vs.flatMap (fun v => serializeTx v.tx) = txs.flatMap serializeTx) :
    List.Forall₂ (fun tx v => tx.txouts = [] ∧ ∀ other, AnalyzedTx.tx v = other.withoutTxouts → Tx.SameRecord tx other)
      txs vs := by
  induction pairs with
  | nil => exact .nil
  | cons first rest ih =>
    obtain ⟨readable, other, readable', shape⟩ := first
    rw [List.flatMap_cons, List.flatMap_cons, shape] at same
    obtain ⟨none, record, same⟩ := serializeTx_append_inj readable readable' same
    refine .cons ⟨none, fun other' shape' => ?_⟩ (ih same)
    exact record.of_withoutTxouts (by rw [← shape, shape'])

section Serving

variable {block : Block} {n : UInt64} {history : List (List AnalyzedBlock)}

/-- What one served answer says about the block and the records under its hashes. -/
theorem sameRecords_of_serves (filled : FilledBy p history s) (known : KnownAs c block n)
    (small : block.txs.length < 2 ^ 40) (analyzes : List.Forall₂ (AnalyzesBlock p scripts) batch analyzed)
    (readable : ∀ tx ∈ batch.flatMap (·.txs), tx.Readable) (member : block ∈ batch)
    (stored : StoresBatch p analyzed s t) (serves : Serves c t block (serializeBlock block)) :
    n = block.header.txsCount ∧ ∀ tx ∈ block.txs, tx.hash ≠ emptyHash ∧ tx.txouts = [] ∧
      ∀ other, Gives t tx other → tx.SameRecord other := by
  have inBatch : ∀ tx ∈ block.txs, tx ∈ batch.flatMap (·.txs) := fun tx inBlock =>
    List.mem_flatMap.mpr ⟨block, member, inBlock⟩
  obtain ⟨⟨owned, answer, same⟩, _⟩ := serves
  obtain ⟨vs, read, rfl⟩ := (getBlock_eq_ok known small analyzes member stored).mp answer
  obtain ⟨a, b, result, sorts, increasing, rfl⟩ := stored
  have absent : (s.write b).txs emptyHash = none :=
    FilledBy.zero_absent (filled.snoc ⟨a, b, result, sorts, rfl⟩)
  have nonzero : ∀ tx ∈ block.txs, tx.hash ≠ emptyHash := by
    intro tx inBlock zero
    obtain ⟨v, _, found⟩ := exists_right read inBlock
    rw [zero, getAnalyzedTx, absent] at found
    cases found
  have given : ∀ tx ∈ block.txs, tx.Readable ∧ ∃ other, other.Readable ∧ Gives (s.write b) tx other := by
    intro tx inBlock
    obtain ⟨other, inOther, _, gives⟩ :=
      exists_gives analyzes readable result sorts (inBatch tx inBlock) (nonzero tx inBlock)
    exact ⟨readable tx (inBatch tx inBlock), other, readable other inOther, gives⟩
  have pairs : List.Forall₂ (fun tx v => Tx.Readable tx ∧ ∃ other, Tx.Readable other ∧ AnalyzedTx.tx v = other.withoutTxouts)
      block.txs vs := by
    refine ((List.forall₂_and_left _ _).mpr ⟨given, read⟩).imp fun tx v both => ?_
    obtain ⟨⟨readable, other, readable', v', found', shape⟩, found⟩ := both
    cases found.symm.trans found'
    exact ⟨readable, other, readable', shape⟩
  obtain ⟨count, bytes⟩ := serializeBlock_inj same
  rw [List.flatMap_map] at bytes
  have records := sameRecords_of_flatMap pairs bytes
  refine ⟨count, fun tx inBlock => ⟨nonzero tx inBlock, ?_⟩⟩
  have both : List.Forall₂ (fun tx v => (Tx.txouts tx = [] ∧ ∀ other, AnalyzedTx.tx v = other.withoutTxouts →
      Tx.SameRecord tx other) ∧ getAnalyzedTx (s.write b).txs tx.hash = .ok v) block.txs vs :=
    records.mp (fun _ _ record found => ⟨record, found⟩) read
  obtain ⟨v, _, ⟨none, record⟩, found⟩ := exists_right both inBlock
  refine ⟨none, fun other gives => ?_⟩
  obtain ⟨v', found', shape⟩ := gives
  cases found.symm.trans found'
  exact record other shape

/-- Records that agree with the block's transactions give its answers. -/
theorem serves_of_recoverable (known : KnownAs c block n) (small : block.txs.length < 2 ^ 40)
    (analyzes : List.Forall₂ (AnalyzesBlock p scripts) batch analyzed)
    (readable : ∀ tx ∈ batch.flatMap (·.txs), tx.Readable) (member : block ∈ batch)
    (stored : StoresBatch p analyzed s t) (count : n = block.header.txsCount) (recoverable : Recoverable batch block) :
    Serves c t block (serializeBlock block) := by
  have answers := fun includeWitnessData owned =>
    @getBlock_eq_ok p scripts c s t batch analyzed block n known small analyzes member stored includeWitnessData owned
  obtain ⟨a, b, result, sorts, _, rfl⟩ := stored
  have found : ∀ tx ∈ block.txs, ∃ v, getAnalyzedTx (s.write b).txs tx.hash = .ok v ∧
      serializeTx v.tx = serializeTx tx ∧ serializeTx v.tx.withoutWitness = serializeTx tx.withoutWitness := by
    intro tx inBlock
    obtain ⟨none, nonzero, agree⟩ := recoverable tx inBlock
    obtain ⟨other, inOther, equal, v, read, shape⟩ :=
      exists_gives analyzes readable result sorts (List.mem_flatMap.mpr ⟨block, member, inBlock⟩) nonzero
    have record := agree other inOther equal
    have stripped : tx.withoutWitness.SameRecord other.withoutWitness := ⟨record.version, record.txins, rfl, record.locktime⟩
    refine ⟨v, read, ?_, ?_⟩
    · rw [shape]
      exact serializeTx_of_sameRecord none record
    · rw [shape]
      exact @serializeTx_of_sameRecord tx.withoutWitness _ none stripped
  obtain ⟨vs, pairs⟩ := forall₂_of_forall_exists found
  have read := pairs.imp fun tx v both => both.1
  have header : { block.header with txsCount := n } = block.header := by rw [count]
  refine ⟨⟨_, (answers true _).mpr ⟨vs, read, rfl⟩, ?_⟩, ⟨_, (answers false _).mpr ⟨vs, read, rfl⟩, ?_⟩⟩
  · have same : vs.flatMap (fun v => serializeTx v.tx) = block.txs.flatMap serializeTx :=
      flatMap_eq_of_pairs (pairs.flip.imp fun v tx both => both.2.1)
    rw [header, serializeBlock, List.flatMap_map]
    exact congrArg (serializeBlockHeader block.header ++ ·) same
  · have same : vs.flatMap (fun v => serializeTx v.tx.withoutWitness) =
        block.txs.flatMap fun tx => serializeTx tx.withoutWitness :=
      flatMap_eq_of_pairs (pairs.flip.imp fun v tx both => both.2.2)
    rw [header, serializeBlock, serializeBlock, Block.withoutWitness, List.flatMap_map, List.flatMap_map]
    exact congrArg (serializeBlockHeader block.header ++ ·) same

theorem count_txs_lt (short : (serializeBlock block).length ≤ maxPacketSize) : block.txs.length < 2 ^ 40 := by
  have count := @length_le_flatMap _ serializeTx block.txs fun tx _ => by
    simp only [serializeTx, List.length_append, length_leBytes]
    omega
  rw [serializeBlock, List.length_append, maxPacketSize] at short
  omega

/-- A block that was received in canonical form is served from the stores exactly when the
known header declares its number of transactions, no transaction has outputs, and
the batch has one record for each of their hashes. -/
theorem serves_iff {bytes : Bytes} (accepts : Accepts sha256 bytes block) (canonical : serializeBlock block = bytes)
    (received : ∀ other ∈ batch, ∃ bytes, Accepts sha256 bytes other) (member : block ∈ batch)
    (analyzes : List.Forall₂ (AnalyzesBlock p scripts) batch analyzed) (filled : FilledBy p history s)
    (written : ∃ t, StoresBatch p analyzed s t) (known : KnownAs c block n) :
    (∀ t, StoresBatch p analyzed s t → Serves c t block bytes) ↔
      n = block.header.txsCount ∧ Recoverable batch block := by
  subst canonical
  have small : block.txs.length < 2 ^ 40 := count_txs_lt accepts.1
  have readable : ∀ tx ∈ batch.flatMap (·.txs), tx.Readable := by
    intro tx inBatch
    obtain ⟨other, inOther, inBlock⟩ := List.mem_flatMap.mp inBatch
    obtain ⟨bytes, accepted⟩ := received other inOther
    exact accepted.readable tx inBlock
  constructor
  · intro serves
    obtain ⟨t, stored⟩ := written
    obtain ⟨count, records⟩ :=
      sameRecords_of_serves filled known small analyzes readable member stored (serves t stored)
    refine ⟨count, fun tx inBlock => ?_⟩
    obtain ⟨nonzero, none, _⟩ := records tx inBlock
    refine ⟨none, nonzero, fun other inOther equal => ?_⟩
    -- a result of the sorts that keeps this other transaction
    obtain ⟨t', stored', gives⟩ := exists_gives_this analyzes readable stored inOther equal nonzero
    have again := sameRecords_of_serves filled known small analyzes readable member stored' (serves t' stored')
    exact (again.2 tx inBlock).2.2 other gives
  · intro ⟨count, recoverable⟩ t stored
    exact serves_of_recoverable known small analyzes readable member stored count recoverable

end Serving

/-! A block with one coinbase transaction. -/

/-- A hash with its first byte in front. -/
def hashOf (value : Nat) : Hash := ⟨beBytes 32 value, length_beBytes 32 value⟩

def coinbaseTx (hash : Hash) (txouts : List TxOut) : Tx :=
  ⟨1, 0, [⟨emptyHash, 0xFFFFFFFF, 0, []⟩], txouts, none, hash, hash⟩

def coinbaseBlock (hash root : Hash) (nonce : UInt32) (txouts : List TxOut) : Block :=
  ⟨⟨1, emptyHash, root, 0, 0x207fffff, nonce, 1, hash⟩, [coinbaseTx root txouts]⟩

def coinbaseRecord (block hash : Hash) (txouts : List TxOut) (txoutsSum : UInt64) : SerializedTx where
  hash := hash
  analyzedTx := serializeAnalyzedTx 0 txoutsSum (UInt32.ofNat (calculateTxSizeWus (coinbaseTx hash txouts))) 0 block
    (coinbaseTx hash txouts) []
  txOuts := serializeArray serializeTxOut txouts
  spentTxos := none
  addressAmends := none
  fee := 0
  txoutsSum := txoutsSum
  sizeWus := UInt32.ofNat (calculateTxSizeWus (coinbaseTx hash txouts))

def noScripts : Scripts := ⟨fun _ _ => .ok 0, fun _ _ _ => .ok none⟩

theorem coinbaseBlock_analyzed {hash root : Hash} {nonce : UInt32} {txouts : List TxOut} {txoutsSum : UInt64}
    (sum : sumU64 .dev (txouts.map (·.value)) = .ok txoutsSum.toNat) :
    List.Forall₂ (AnalyzesBlock .dev noScripts) [coinbaseBlock hash root nonce txouts]
      [⟨hash, [coinbaseRecord hash root txouts txoutsSum]⟩] := by
  refine .cons ⟨rfl, .cons ⟨[], Nat.zero_le _, ?_⟩ .nil⟩ .nil
  have same : UInt64.ofNat txoutsSum.toNat = txoutsSum := UInt64.ofNat_toNat
  rw [analyzeTx, show (coinbaseTx root txouts).isCoinbase = true from rfl, if_pos rfl, Outcome.ok_bind]
  rw [show sumU64 .dev ((coinbaseTx root txouts).txouts.map (·.value)) = .ok txoutsSum.toNat from sum, Outcome.ok_bind,
    same]
  rfl

theorem coinbaseBlock_stored (hash root : Hash) (txouts : List TxOut) (txoutsSum : UInt64) :
    ∃ t, StoresBatch .dev [⟨hash, [coinbaseRecord hash root txouts txoutsSum]⟩] .empty t := by
  let a : Arrays := ⟨[(hash, serializedTxhashes ⟨hash, [coinbaseRecord hash root txouts txoutsSum]⟩)],
    [coinbaseRecord hash root txouts txoutsSum], [], []⟩
  have separate : a.Separate := by
    refine ⟨List.nodup_singleton _, List.nodup_nil, List.nodup_nil, ?_⟩
    intro x inX y inY _ _
    rw [List.mem_singleton.mp inX, List.mem_singleton.mp inY]
    exact ⟨rfl, rfl⟩
  obtain ⟨b, sorts⟩ := a.exists_sorts
  exact ⟨_, a, b, rfl, sorts, (separate.write sorts .empty).1, rfl⟩

def megabyteArena : Arena := ⟨4096, 2 ^ 20, by decide⟩

/-- A block that pays no one. -/
def unpaidBlock : Block :=
  coinbaseBlock (hashOf 0xf7caafbcd061b019cc4f90d895ee166bf27ad122ffafccfd4fb387c9fe177102)
    (hashOf 0xdfde1f18fad2ddf9a35a6c258ef4a9ef8127618f169d62602f477d5d154b63e6) 1 []

def paidBlock : Block :=
  coinbaseBlock (hashOf 0xcfa55d5ff7a0a07352b6d074d82390e61e8cf8df22e71dfadd769d269a3fb80f)
    (hashOf 0x5061740ea58d1b970ed3833844ed075ae9328f40dcdfc6e85de7a6f0ffdce6b5) 2 [⟨50, [81]⟩]

theorem unpaidBlock_accepted : Accepts Sha256.sha256 (serializeBlock unpaidBlock) unpaidBlock :=
  ⟨by decide +kernel, megabyteArena, 0, 132, 152, by decide +kernel⟩

theorem paidBlock_accepted : Accepts Sha256.sha256 (serializeBlock paidBlock) paidBlock :=
  ⟨by decide +kernel, megabyteArena, 0, 142, 176, by decide +kernel⟩

theorem accepted_of_mem {block other : Block} (accepted : Accepts Sha256.sha256 (serializeBlock block) block)
    (inBatch : other ∈ [block]) : ∃ bytes, Accepts Sha256.sha256 bytes other := by
  rw [List.mem_singleton.mp inBatch]
  exact ⟨_, accepted⟩

/-- The chain with the header of this block. -/
def chainWith (block : Block) : Chain :=
  { Chain.default with
    knownHeaders := mapInsert (fun _ => none) block.header.hash ⟨block.header, 0, true, 0, none⟩ }

theorem knownAs_chainWith (block : Block) : KnownAs (chainWith block) block block.header.txsCount :=
  ⟨_, mapInsert_self (fun _ => none) block.header.hash _, rfl⟩

theorem serves_iff_coinbase :
    ∃ t, StoresBatch .dev [⟨unpaidBlock.header.hash, [coinbaseRecord unpaidBlock.header.hash unpaidBlock.header.merkleRoot [] 0]⟩] .empty t ∧
      Serves (chainWith unpaidBlock) t unpaidBlock (serializeBlock unpaidBlock) := by
  have recoverable : Recoverable [unpaidBlock] unpaidBlock := by
    intro tx inBlock
    rw [List.mem_singleton.mp inBlock]
    refine ⟨rfl, by decide, fun other inBatch _ => ?_⟩
    rw [show other = coinbaseTx unpaidBlock.header.merkleRoot [] from List.mem_singleton.mp inBatch]
    exact ⟨rfl, rfl, rfl, rfl⟩
  obtain ⟨t, stored⟩ := coinbaseBlock_stored unpaidBlock.header.hash unpaidBlock.header.merkleRoot [] 0
  have serves := (serves_iff unpaidBlock_accepted rfl (fun _ => accepted_of_mem unpaidBlock_accepted)
    List.mem_cons_self (coinbaseBlock_analyzed rfl) .nil ⟨t, stored⟩ (knownAs_chainWith unpaidBlock)).mpr
      ⟨rfl, recoverable⟩
  exact ⟨t, stored, serves t stored⟩

/-- The output of the coinbase transaction is lost. -/
theorem serves_fails :
    ¬ ∀ (p : Profile) (scripts : Scripts) (sha256 : Bytes → Hash) (c : Chain) (s t : Stores)
        (history : List (List AnalyzedBlock)) (batch : List Block) (analyzed : List AnalyzedBlock) (block : Block)
        (bytes : Bytes) (n : UInt64),
      Accepts sha256 bytes block → serializeBlock block = bytes → (∀ other ∈ batch, ∃ bytes, Accepts sha256 bytes other) →
        block ∈ batch → List.Forall₂ (AnalyzesBlock p scripts) batch analyzed → FilledBy p history s →
          StoresBatch p analyzed s t → KnownAs c block n → Serves c t block bytes := by
  intro claim
  obtain ⟨t, stored⟩ := coinbaseBlock_stored paidBlock.header.hash paidBlock.header.merkleRoot [⟨50, [81]⟩] 50
  have known := knownAs_chainWith paidBlock
  have analyzes : List.Forall₂ (AnalyzesBlock .dev noScripts) [paidBlock] _ := coinbaseBlock_analyzed rfl
  have serves := claim .dev noScripts Sha256.sha256 (chainWith paidBlock) .empty t [] [paidBlock] _ paidBlock _ _
    paidBlock_accepted rfl (fun _ => accepted_of_mem paidBlock_accepted) List.mem_cons_self analyzes .nil stored known
  have readable : ∀ tx ∈ [paidBlock].flatMap (·.txs), tx.Readable := paidBlock_accepted.readable
  have filled : FilledBy .dev [] .empty := .nil
  have records := sameRecords_of_serves filled known (by decide) analyzes readable List.mem_cons_self stored serves
  exact absurd (records.2 _ List.mem_cons_self).2.1 (List.cons_ne_nil _ _)

end Bitlens

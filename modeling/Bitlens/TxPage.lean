import Bitlens.ReorgRecords

namespace Bitlens
open Lib

/-! The table of spends. -/

/-- The index of a spent output, and the transaction that spends it with its block. -/
structure TxSpend where
  index : UInt32
  spender : Hash
  block : Hash

/-- The key of an output in the table. -/
def spendKey (hash : Hash) (index : UInt32) : ByteArr 36 :=
  ⟨hash.1 ++ leBytes 4 index.toNat, by rw [List.length_append, hash.2, length_leBytes]⟩

/-- An item of the iterator; other lengths panic. -/
def readSpend (item : Bytes × Bytes) : Outcome TxSpend :=
  if item.1.length = 36 ∧ item.2.length = 64 then do
    let tx ← Outcome.unwrap (ByteArr.ofBytes 32 (item.2.take 32))
    let block ← Outcome.unwrap (ByteArr.ofBytes 32 ((item.2.drop 32).take 32))
    pure ⟨UInt32.ofNat (leNat ((item.1.drop 32).take 4)), tx, block⟩
  else .fault

/-- `get_tx_spends`. The items that a prefix iterator over `TXSPENDS_DB` yields are given. -/
def getTxSpends (items : List (Bytes × Bytes)) : Outcome (List TxSpend) :=
  spawned (Outcome.mapM readSpend items)

/-- What the iterator yields: the pairs of the store whose key begins with the hash, in the order of their keys. -/
structure PrefixItems (store : ByteArr 36 → Option Bytes) (hash : Hash) (items : List (Bytes × Bytes)) : Prop where
  strict : StrictKeys items
  mem_iff : ∀ key value, (key, value) ∈ items ↔
    ∃ outpoint : ByteArr 36, outpoint.1 = key ∧ key.take 32 = hash.1 ∧ store outpoint = some value

def filterTxSpends (c : Chain) (spends : List TxSpend) : List (UInt32 × Hash) :=
  (spends.filter fun item => item.block ∈ c.mostWorkChain).map fun item => (item.index, item.spender)

/-! The page of a transaction. -/

structure TxDataResponse where
  header : BlockHeaderWithNumber
  tx : AnalyzedTx
  spends : List (UInt32 × Hash)
  txinAddresses : List Address
  txoutAddresses : List Address

/-- One task for each input; an index out of range panics it. -/
def getTxoutsForTxins (store : Hash → Option Bytes) (txins : List TxIn) : Outcome (List TxOut) :=
  Outcome.mapM (fun txin : TxIn => spawned do
    let txouts ← getTransactionOutputs store txin.prevoutHash
    Outcome.unwrap txouts[txin.prevoutIndex.toNat]?) txins

def txoutsToAddresses (codecs : AddressCodecs) (txouts : List TxOut) : List Address :=
  if txouts.isEmpty then [.coinbase]
  else txouts.map fun txout => getHumanAddressFromScript codecs txout.script

/-- The answer to a well-formed hash; each error is answered with "not found". -/
def txdata (sha256 : Bytes → Hash) (codecs : AddressCodecs) (c : Chain) (stores : Stores) (items : List (Bytes × Bytes))
    (hash : Hash) : Outcome TxDataResponse := do
  let tx ← getAnalyzedTx stores.txs hash
  let txouts ← getTransactionOutputs stores.txouts hash
  let full ← Tx.computeWitnessHash sha256 { tx.tx with txouts := txouts }
  let header ← Outcome.orErr (c.knownHeaders tx.blockHash)
  let spends ← getTxSpends items
  let filteredSpends := filterTxSpends c spends
  let txoutAddresses := txoutsToAddresses codecs full.txouts
  let txoutsForTxins ←
    (if full.isCoinbase then .ok [] else getTxoutsForTxins stores.txouts full.txins : Outcome (List TxOut))
  pure ⟨header, { tx with tx := full }, filteredSpends, txoutsToAddresses codecs txoutsForTxins, txoutAddresses⟩

variable {p : Profile} {scripts : Scripts} {block : Block} {stores : Stores} {hash : Hash}
  {items : List (Bytes × Bytes)} {spends : List TxSpend} {c : Chain}

/-! What is read from the table. -/

theorem serializeSpends_eq (tx : Tx) :
    serializeSpends tx = tx.txins.map fun txin => spendKey txin.prevoutHash txin.prevoutIndex := rfl

theorem take_spendKey (hash : Hash) (index : UInt32) : (spendKey hash index).1.take 32 = hash.1 :=
  List.take_left' hash.2

theorem readSpend_eq (hash : Hash) (spend : TxSpend) :
    readSpend ((spendKey hash spend.index).1, spend.spender.1 ++ spend.block.1) = .ok spend := by
  have sized : (spendKey hash spend.index).1.length = 36 ∧ (spend.spender.1 ++ spend.block.1).length = 64 :=
    ⟨(spendKey hash spend.index).2, by rw [List.length_append, spend.spender.2, spend.block.2]⟩
  have index : ((spendKey hash spend.index).1.drop 32).take 4 = leBytes 4 spend.index.toNat := by
    rw [spendKey, List.drop_left' hash.2, List.take_of_length_le (length_leBytes 4 _).le]
  have tx : (spend.spender.1 ++ spend.block.1).take 32 = spend.spender.1 := List.take_left' spend.spender.2
  have block : ((spend.spender.1 ++ spend.block.1).drop 32).take 32 = spend.block.1 := by
    rw [List.drop_left' spend.spender.2, List.take_of_length_le spend.block.2.le]
  have value : UInt32.ofNat (leNat (leBytes 4 spend.index.toNat)) = spend.index := by
    have bound : spend.index.toNat < 256 ^ 4 := spend.index.toNat_lt
    rw [leNat_leBytes, Nat.mod_eq_of_lt bound, UInt32.ofNat_toNat]
  rw [readSpend, if_pos sized]
  simp only [tx, block, index, value, ByteArr.ofBytes, spend.spender.2, spend.block.2, dif_pos, Outcome.unwrap_some,
    Outcome.ok_bind, Outcome.pure_def]

/-- The item says what the entry says. -/
def SpendItem (hash : Hash) (item : Bytes × Bytes) (spend : TxSpend) : Prop :=
  item = ((spendKey hash spend.index).1, spend.spender.1 ++ spend.block.1)

/-- Each index is shown at most once. -/
theorem nodup_filterTxSpends (strict : StrictKeys items) (read : List.Forall₂ (SpendItem hash) items spends) :
    ((filterTxSpends c spends).map Prod.fst).Nodup := by
  have keys : items.map Prod.fst = (spends.map TxSpend.index).map fun index => (spendKey hash index).1 := by
    rw [List.map_map, ← List.forall₂_eq_eq_eq, List.forall₂_map_left_iff, List.forall₂_map_right_iff]
    exact read.imp fun item spend same => congrArg Prod.fst same
  have distinct : (items.map Prod.fst).Nodup := strict.imp fun below same => absurd same below.ne
  rw [keys] at distinct
  rw [filterTxSpends, List.map_map]
  exact distinct.of_map.sublist (List.Sublist.map _ List.filter_sublist)

theorem mem_filterTxSpends {index : UInt32} {spender : Hash} : (index, spender) ∈ filterTxSpends c spends ↔
    ∃ block, (⟨index, spender, block⟩ : TxSpend) ∈ spends ∧ block ∈ c.mostWorkChain := by
  simp only [filterTxSpends, List.mem_map, List.mem_filter, decide_eq_true_eq, Prod.mk.injEq]
  constructor
  · rintro ⟨⟨_, _, block⟩, ⟨member, main⟩, rfl, rfl⟩
    exact ⟨block, member, main⟩
  · rintro ⟨block, member, main⟩
    exact ⟨_, ⟨member, main⟩, rfl, rfl⟩

/-- The stored record names its block. -/
theorem AnalyzesTx.blockHash {header : BlockHeaderOwned} {tx : Tx} {record : SerializedTx} {v : AnalyzedTx}
    (analyzes : AnalyzesTx p scripts header tx record) (readable : tx.Readable) {store : Hash → Option Bytes}
    (found : store tx.hash = some record.analyzedTx) (read : Bitlens.getAnalyzedTx store tx.hash = .ok v) :
    v.blockHash = header.hash := by
  obtain ⟨dependencies, count, result⟩ := analyzes
  obtain ⟨_, sigops, stored⟩ := analyzeTx_eq_ok result
  have inputs := lt_of_le_of_lt (length_txins_le tx) readable.small
  have back := deserializeAnalyzedTx_ok readable.complete (lt_trans readable.small (by decide))
    (show dependencies.length < 2 ^ 60 by omega) record.fee record.txoutsSum record.sizeWus sigops header.hash
  rw [Bitlens.getAnalyzedTx, found] at read
  dsimp only at read
  split at read
  · cases read
  · rw [stored, back] at read
    cases read
    rfl

theorem computeWitnessHash_congr (sha256 : Bytes → Hash) (tx : Tx) :
    Tx.computeWitnessHash sha256 { tx.withoutTxouts with txouts := tx.txouts } = tx.computeWitnessHash sha256 := rfl

theorem exists_witnessHash (sha256 : Bytes → Hash) {tx : Tx} (readable : tx.Readable) :
    ∃ full, tx.computeWitnessHash sha256 = .ok full ∧ full = { tx with witnessHash := full.witnessHash } := by
  have long : 4 ≤ (serializeTx tx).length := by
    simp only [serializeTx, List.length_append, length_leBytes]
    omega
  obtain ⟨full, computed, same, _⟩ := @computeWitnessHash_ok tx sha256 readable.complete []
    ((serializeTx tx).length - 4) (Nat.sub_add_cancel long).symm
  exact ⟨full, computed, same⟩

namespace Ledger

variable {s t : Ledger} {repeated : Hash → Prop}

/-- An output of a written transaction. -/
def Pays (s : Ledger) (txin : TxIn) (txout : TxOut) : Prop :=
  ∃ funder ∈ s.written, ∃ tx ∈ funder.txs, tx.hash = txin.prevoutHash ∧
    tx.txouts[txin.prevoutIndex.toNat]? = some txout

/-- What the page of a transaction shows: the transaction with its outputs, the header of its block, where the
coins come from, and the blocks of the main chain that spend them. -/
structure Shows (sha256 : Bytes → Hash) (codecs : AddressCodecs) (s : Ledger) (repeated : Hash → Prop) (block : Block)
    (tx : Tx) (r : TxDataResponse) : Prop where
  header : s.chainman.chain.knownHeaders block.header.hash = some r.header
  full : tx.computeWitnessHash sha256 = .ok r.tx.tx
  same : r.tx.tx = { tx with witnessHash := r.tx.tx.witnessHash }
  txouts : r.txoutAddresses = txoutsToAddresses codecs tx.txouts
  txins : ∃ txouts, r.txinAddresses = txoutsToAddresses codecs txouts ∧ (tx.isCoinbase = true → txouts = []) ∧
    (tx.isCoinbase = false → List.Forall₂ s.Pays tx.txins txouts)
  once : (r.spends.map Prod.fst).Nodup
  spent : ∀ index spender, (index, spender) ∈ r.spends → ∃ other ∈ s.written,
    s.chainman.chain.OnMain other.header.hash ∧ other.Spends (spendKey tx.hash index) (spender.1 ++ other.header.hash.1)
  listed : ∀ other ∈ s.written, s.chainman.chain.OnMain other.header.hash →
    other.header.hash ∉ s.queue.map (·.hash) → ¬ repeated other.header.hash → ∀ index spender,
      other.Spends (spendKey tx.hash index) (spender.1 ++ other.header.hash.1) → (index, spender) ∈ r.spends

/-- The lengths in the table are the asserted ones. -/
theorem Sound.read_items (sound : s.Sound p scripts repeated) (listed : PrefixItems s.stores.spends hash items) :
    ∃ spends, getTxSpends items = .ok spends ∧ List.Forall₂ (SpendItem hash) items spends := by
  have each : ∀ item ∈ items, ∃ spend, readSpend item = .ok spend ∧ SpendItem hash item spend := by
    intro item member
    obtain ⟨key, value⟩ := item
    obtain ⟨outpoint, rfl, front, found⟩ := (listed.mem_iff key value).mp member
    obtain ⟨block, _, tx, _, _, spent, rfl⟩ := sound.origin outpoint value found
    rw [serializeSpends_eq] at spent
    obtain ⟨txin, _, rfl⟩ := List.mem_map.mp spent
    obtain rfl : txin.prevoutHash = hash := Subtype.ext ((take_spendKey _ _).symm.trans front)
    let spend : TxSpend := ⟨txin.prevoutIndex, tx.hash, block.header.hash⟩
    exact ⟨spend, readSpend_eq txin.prevoutHash spend, rfl⟩
  obtain ⟨spends, read, pairs⟩ := Outcome.mapM_forall₂ each
  exact ⟨spends, by rw [getTxSpends, read, spawned], pairs⟩

theorem Sound.shown_spent (sound : s.Sound p scripts repeated) (listed : PrefixItems s.stores.spends hash items)
    (read : List.Forall₂ (SpendItem hash) items spends) {index : UInt32} {spender : Hash}
    (shown : (index, spender) ∈ filterTxSpends s.chainman.chain spends) :
    ∃ other ∈ s.written, s.chainman.chain.OnMain other.header.hash ∧
      other.Spends (spendKey hash index) (spender.1 ++ other.header.hash.1) := by
  obtain ⟨name, member, main⟩ := mem_filterTxSpends.mp shown
  obtain ⟨item, inItems, rfl⟩ := exists_left read member
  obtain ⟨outpoint, key, _, found⟩ := (listed.mem_iff _ _).mp inItems
  obtain rfl : outpoint = spendKey hash index := Subtype.ext key
  obtain ⟨other, written, spends⟩ := sound.origin _ _ found
  have value := spends
  obtain ⟨tx, _, _, _, value⟩ := value
  obtain rfl : name = other.header.hash := Subtype.ext (List.append_inj value (by rw [spender.2, tx.hash.2])).2
  exact ⟨other, written, (sound.tracks _).mp main, spends⟩

theorem Sound.spent_shown {other : Block} (sound : s.Sound p scripts repeated)
    (listed : PrefixItems s.stores.spends hash items) (read : List.Forall₂ (SpendItem hash) items spends)
    (recorded : Recorded p scripts s.stores other) (onMain : s.chainman.chain.OnMain other.header.hash) {index : UInt32}
    {spender : Hash} (spent : other.Spends (spendKey hash index) (spender.1 ++ other.header.hash.1)) :
    (index, spender) ∈ filterTxSpends s.chainman.chain spends := by
  obtain ⟨analyzed, analyzes, _, _, table⟩ := recorded
  have found := table _ (analyzes.mem_blockSpends.mpr spent)
  have item := (listed.mem_iff _ _).mpr ⟨spendKey hash index, rfl, take_spendKey hash index, found⟩
  obtain ⟨spend, member, same⟩ := exists_right read item
  have one := readSpend_eq hash spend
  rw [← show _ = _ from same, readSpend_eq hash ⟨index, spender, other.header.hash⟩] at one
  cases one
  exact mem_filterTxSpends.mpr ⟨_, member, (sound.tracks _).mpr onMain⟩

/-- What a block of the main chain that does not wait is built on does not wait either. -/
theorem Sound.below_done {below : Hash} (sound : s.Sound p scripts repeated) (onMain : s.chainman.chain.OnMain hash)
    (done : hash ∉ s.queue.map (·.hash)) (built : BuiltOn s.chainman.chain.parentOf hash below) :
    below ∉ s.queue.map (·.hash) := by
  obtain ⟨front, back, whole, above⟩ := sound.scheduled.main hash onMain
  have graded := sound.topped.rooted.graded
  rcases append_eq_split whole with ⟨post, _, rfl⟩ | ⟨pre, _, late⟩
  · intro waits
    have cycle := above below (List.mem_append_right _ waits)
    have known := sound.scheduled.members below (List.mem_append_right _ waits)
    exact (graded.builtOn_trans known cycle.1 built).2 rfl
  · exact absurd (by simp [late]) done

/-- The outputs that the inputs spend are found. -/
theorem Sound.pays (sound : s.Sound p scripts repeated) (onMain : s.chainman.chain.OnMain block.header.hash)
    (done : block.header.hash ∉ s.queue.map (·.hash)) (member : block ∈ s.written)
    (recorded : Recorded p scripts s.stores block) {tx : Tx} (inBlock : tx ∈ block.txs)
    (other : tx.isCoinbase = false) :
    ∃ txouts, getTxoutsForTxins s.stores.txouts tx.txins = .ok txouts ∧ List.Forall₂ s.Pays tx.txins txouts := by
  refine Outcome.mapM_forall₂ fun txin spent => ?_
  have inSpends : txin ∈ block.spends :=
    List.mem_flatMap.mpr ⟨tx, List.mem_filter.mpr ⟨inBlock, by rw [other]; rfl⟩, spent⟩
  obtain ⟨funder, paying, place, inFunder, named, inside⟩ := sound.funded block member txin inSpends
  have found : funder ∈ s.written ∧ Recorded p scripts s.stores funder := by
    rcases place with rfl | ⟨inWritten, once, built⟩
    · exact ⟨member, recorded⟩
    · have below := sound.below_done onMain done built
      obtain ⟨funder', inWritten', hash, recorded'⟩ := sound.recorded (onMain.trans built.1) below once
      rw [sound.same funder' inWritten' funder inWritten hash] at recorded'
      exact ⟨inWritten, recorded'⟩
  have read := found.2.getTransactionOutputs inFunder (sound.readable funder found.1 paying inFunder)
  have output := List.getElem?_eq_getElem inside
  refine ⟨_, ?_, funder, found.1, paying, inFunder, named, output⟩
  rw [← named, read, Outcome.ok_bind, output]
  rfl

/-- Whatever headers came, reorganisations included, the page of each transaction in a block of the main chain
that does not wait shows the transaction, and exactly the spends of its outputs on the main chain. -/
theorem txdata_shows {s t : Ledger} {events : List LedgerEvent} {sha256 : Bytes → Hash} (codecs : AddressCodecs)
    (ready : s.Ready p scripts repeated) (run : Run (Guarded (Orderly p repeated) (Step p sha256 scripts)) s events t)
    {hash : Hash} (onMain : t.chainman.chain.OnMain hash) (done : hash ∉ t.queue.map (·.hash))
    (once : ¬ repeated hash) :
    ∃ block ∈ t.written, block.header.hash = hash ∧ ∀ tx ∈ block.txs, ∀ items,
      PrefixItems t.stores.spends tx.hash items →
        ∃ r, txdata sha256 codecs t.chainman.chain t.stores items tx.hash = .ok r ∧
          t.Shows sha256 codecs repeated block tx r := by
  have sound := ready.run run
  obtain ⟨block, member, rfl, recorded⟩ := sound.recorded onMain done once
  refine ⟨block, member, rfl, fun tx inBlock items listed => ?_⟩
  have readable := sound.readable block member tx inBlock
  have rooted := sound.topped.rooted
  obtain ⟨known, header⟩ := Option.isSome_iff_exists.mp (rooted.graded.descends rooted.known_top onMain).1
  -- the stored record, with its outputs and its block
  have outputs := recorded.getTransactionOutputs inBlock readable
  have whole := recorded
  obtain ⟨analyzed, analyzes, txs, _⟩ := whole
  obtain ⟨record, inAnalyzed, each⟩ := exists_right analyzes.2 inBlock
  have found := (txs record inAnalyzed).1
  rw [each.hash] at found
  obtain ⟨v, read, shape, _⟩ := each.getAnalyzedTx readable found
  have name := each.blockHash readable found read
  obtain ⟨full, computed, same⟩ := exists_witnessHash sha256 readable
  have coinbase : full.isCoinbase = tx.isCoinbase := by
    rw [same]
    rfl
  have created : full.txouts = tx.txouts := by rw [same]
  have inputs : full.txins = tx.txins := by rw [same]
  obtain ⟨spends, table, pairs⟩ := sound.read_items listed
  have sources : ∃ txouts, (if full.isCoinbase then .ok [] else getTxoutsForTxins t.stores.txouts full.txins) =
      Outcome.ok txouts ∧ (tx.isCoinbase = true → txouts = []) ∧
        (tx.isCoinbase = false → List.Forall₂ t.Pays tx.txins txouts) := by
    rw [coinbase, inputs]
    cases kind : tx.isCoinbase with
    | true => exact ⟨[], rfl, fun _ => rfl, nofun⟩
    | false =>
      obtain ⟨txouts, returned, pays⟩ := sound.pays onMain done member recorded inBlock kind
      exact ⟨txouts, returned, nofun, fun _ => pays⟩
  obtain ⟨txouts, returned, sources⟩ := sources
  refine ⟨⟨known, { v with tx := full }, filterTxSpends t.chainman.chain spends, txoutsToAddresses codecs txouts,
    txoutsToAddresses codecs full.txouts⟩, ?_, header, computed, same, by rw [created], ⟨txouts, rfl, sources⟩,
    nodup_filterTxSpends listed.strict pairs, fun index spender => sound.shown_spent listed pairs, ?_⟩
  · rw [txdata, read, Outcome.ok_bind, outputs, Outcome.ok_bind, shape, computeWitnessHash_congr, computed,
      Outcome.ok_bind, name, header, Outcome.orErr_some, Outcome.ok_bind, table, Outcome.ok_bind]
    dsimp only
    rw [returned]
    rfl
  · intro other inWritten main settled single index spender spent
    obtain ⟨other', inWritten', hash, recorded'⟩ := sound.recorded main settled single
    rw [sound.same other' inWritten' other inWritten hash] at recorded'
    exact sound.spent_shown listed pairs recorded' main spent

theorem spender_written : ∃ start, (onlyGenesis start).Ready .dev checkedScripts (fun _ => False) ∧ ∃ stores,
    Reaches start ⟨withBlock spenderWaits spenderBlock, stores, [genesisBlock, childBlock 1, childBlock 2, spenderBlock]⟩ := by
  obtain ⟨start, ready, stores, reaches⟩ := spender_waits
  obtain ⟨later, reaches⟩ := withBlock_steps ready reaches (by decide) samples_wait.2.2 (spenderBlock_lawful stores)
    spenderBlock_writable
  exact ⟨start, ready, later, reaches⟩

/-- The item in the table for the output that the spender spends. -/
def spentItem : Bytes × Bytes :=
  ((spendKey (sampleHash 5) 0).1, (sampleHash 7).1 ++ spenderBlock.header.hash.1)

theorem spenderBlock_spends : spenderBlock.Spends (spendKey (sampleHash 5) 0) spentItem.2 :=
  ⟨spendingTx, by simp [spenderBlock, blockOn], rfl, List.mem_singleton_self _, rfl⟩

theorem spends_eq {block : Block} (member : block ∈ [genesisBlock, childBlock 1, childBlock 2, spenderBlock])
    {outpoint : ByteArr 36} {value : Bytes} (spends : block.Spends outpoint value) :
    outpoint = spendKey (sampleHash 5) 0 ∧ value = spentItem.2 := by
  obtain ⟨tx, inBlock, other, spent, rfl⟩ := spends
  have coinbases : ∀ name, (coinbaseOf name).isCoinbase = true := fun _ => rfl
  simp only [List.mem_cons, List.not_mem_nil, or_false] at member
  rcases member with rfl | rfl | rfl | rfl
  · rw [List.mem_singleton.mp inBlock, coinbases] at other
    cases other
  · rw [List.mem_singleton.mp inBlock, coinbases] at other
    cases other
  · rw [List.mem_singleton.mp inBlock, coinbases] at other
    cases other
  · rcases List.mem_cons.mp inBlock with rfl | last
    · rw [coinbases] at other
      cases other
    · obtain rfl := List.mem_singleton.mp last
      exact ⟨List.mem_singleton.mp spent, rfl⟩

theorem txdata_shows_spender : ∃ t : Ledger, t.written = [genesisBlock, childBlock 1, childBlock 2, spenderBlock] ∧
    ∃ r, txdata (fun _ => emptyHash) markedCodecs t.chainman.chain t.stores [spentItem] (sampleHash 5) = .ok r ∧
      (0, sampleHash 7) ∈ r.spends ∧
        t.Shows (fun _ => emptyHash) markedCodecs (fun _ => False) (childBlock 2) (coinbaseOf 5) r := by
  obtain ⟨start, ready, stores, events, run⟩ := spender_written
  have sound := ready.run run
  have top : (withBlock spenderWaits spenderBlock).chainman.chain.topHeader.header.hash = spenderBlock.header.hash := by decide
  have edge : (withBlock spenderWaits spenderBlock).chainman.chain.parentOf spenderBlock.header.hash =
      some (childBlock 2).header.hash := by decide
  have idle : (withBlock spenderWaits spenderBlock).queue.map (·.hash) = [] := by decide
  have onTop : (withBlock spenderWaits spenderBlock).chainman.chain.OnMain spenderBlock.header.hash := by
    rw [Chain.OnMain, top]
    exact .refl _
  have onMain : (withBlock spenderWaits spenderBlock).chainman.chain.OnMain (childBlock 2).header.hash := by
    rw [Chain.OnMain, top]
    exact .of_parent edge
  have done : ∀ hash, hash ∉ (withBlock spenderWaits spenderBlock).queue.map (·.hash) := fun hash => idle ▸ List.not_mem_nil
  have listed : PrefixItems stores.spends (sampleHash 5) [spentItem] := by
    refine ⟨List.pairwise_singleton _ _, fun key value => ⟨fun member => ?_, fun found => ?_⟩⟩
    · obtain ⟨rfl, rfl⟩ := Prod.mk.inj (List.mem_singleton.mp member)
      obtain ⟨block, inWritten, hash, analyzed, analyzes, _, _, table⟩ := sound.recorded onTop (done _) id
      obtain rfl : block = spenderBlock := by
        simp only [List.mem_cons, List.not_mem_nil, or_false] at inWritten
        rcases inWritten with rfl | rfl | rfl | rfl
        · exact absurd hash (by decide)
        · exact absurd hash (by decide)
        · exact absurd hash (by decide)
        · rfl
      exact ⟨_, rfl, take_spendKey _ _, table _ (analyzes.mem_blockSpends.mpr spenderBlock_spends)⟩
    · obtain ⟨outpoint, rfl, _, found⟩ := found
      obtain ⟨block, inWritten, spends⟩ := sound.origin outpoint value found
      obtain ⟨rfl, rfl⟩ := spends_eq inWritten spends
      exact List.mem_singleton_self _
  obtain ⟨block, member, hash, shows⟩ := txdata_shows markedCodecs ready run onMain (done _) id
  obtain rfl : block = childBlock 2 := by
    simp only [List.mem_cons, List.not_mem_nil, or_false] at member
    rcases member with rfl | rfl | rfl | rfl
    · exact absurd hash (by decide)
    · exact absurd hash (by decide)
    · rfl
    · exact absurd hash (by decide)
  obtain ⟨r, answer, shown⟩ := shows _ List.mem_cons_self [spentItem] listed
  exact ⟨_, rfl, r, answer, shown.listed spenderBlock (by simp) onTop (done _) id 0 (sampleHash 7) spenderBlock_spends, shown⟩

end Ledger

end Bitlens

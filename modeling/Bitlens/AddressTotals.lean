import Bitlens.AddressSeparation
import Bitlens.ChainEvents

namespace Bitlens
open Lib

structure AddressTransaction where
  transactionHash : Hash
  blockHash : Hash
  blockNumber : Nat
  timestamp : UInt32
  value : Int64
  singleOtherAddress : Option Address
  distinctOtherAddresses : Nat

def addressTransaction (c : Chain) (item : AddressEntry) : Outcome (List AddressTransaction) := do
  let block ← Outcome.unwrap (c.knownHeaders item.blockHash)
  pure [⟨item.txHash, item.blockHash, block.number, block.header.timestamp, item.delta, none, 0⟩]

def filterAndPopulateAddressTxs (c : Chain) (addressTxs : List AddressEntry) : Outcome (List AddressTransaction) :=
  if addressTxs.isEmpty then .ok []
  else Outcome.flatMapM (addressTransaction c) (addressTxs.filter fun item => item.blockHash ∈ c.mostWorkChain)

/-- The totals of the answer are those of the transactions. -/
structure TopAddressData.CountsOnly (data : TopAddressData) (kept : List AddressTransaction) : Prop where
  count : data.totalTxs = kept.length
  spent : data.totalSpent = (kept.map fun tx => (-tx.value.toInt).toNat).sum
  received : data.totalReceived = (kept.map fun tx => tx.value.toInt.toNat).sum

/-- The totals that are returned for the address are those of the transactions that
`filter_and_populate_address_txs` keeps when no limit cuts the list. -/
def TotalsAgree (p : Profile) (c : Chain) (iterate : Bytes → Bytes → List (Bytes × Bytes)) (address : Bytes) : Prop :=
  ∀ topCount data, (addressItems iterate address).length ≤ topCount →
    getTopAddressData p iterate address topCount = .ok data →
      ∃ kept, filterAndPopulateAddressTxs c data.transactions = .ok kept ∧ data.CountsOnly kept

/-- A stored entry of the address names the block. -/
def Names (s : Stores) (address : Bytes) (hash : Hash) : Prop :=
  ∃ key value, s.amends key = some value ∧ InRange address key ∧ value.take 32 = hash.1

/-- Every entry of the address names a block of the main-chain index. -/
def EntriesOnMain (address : Bytes) (s : IndexedChain) : Prop :=
  ∀ hash, Names s.stores address hash → hash ∈ s.chainman.chain.mostWorkChain

/-- The event takes no block that an entry of the address names out of the main-chain
index, and writes entries of the address for blocks in the index only. -/
def KeepsEntriesOnMain (p : Profile) (address : Bytes) (s : IndexedChain) (event : ChainEvent) : Prop :=
  ∀ w, event.next p s.chainman = .ok w →
    (∀ hash ∈ s.chainman.chain.mostWorkChain, Names s.stores address hash → hash ∈ w.chain.mostWorkChain) ∧
      ∀ batch, event = .applied batch → Ingested (batch.map Prod.fst) → ∀ block ∈ batch.map Prod.fst,
        (∃ key ∈ block.keys, InRange address key) → block.header.hash ∈ w.chain.mostWorkChain

variable {p : Profile} {c : Chain} {s t : IndexedChain} {event : ChainEvent} {events : List ChainEvent}
  {iterate : Bytes → Bytes → List (Bytes × Bytes)} {address : Bytes} {items : List (Bytes × Bytes)}
  {entries : List AddressEntry} {data : TopAddressData}

/-! The two answers in one state. -/

theorem addressTransactions_ok {entries : List AddressEntry} (known : ∀ item ∈ entries, c.Known item.blockHash) :
    ∃ kept, Outcome.flatMapM (addressTransaction c) entries = .ok kept ∧ kept.map (·.value) = entries.map (·.delta) := by
  induction entries with
  | nil => exact ⟨[], rfl, rfl⟩
  | cons item entries ih =>
    obtain ⟨block, atBlock⟩ := Option.isSome_iff_exists.mp (known item List.mem_cons_self)
    obtain ⟨kept, rest, values⟩ := ih fun other member => known other (List.mem_cons_of_mem _ member)
    rw [Outcome.flatMapM, addressTransaction, atBlock, rest]
    refine ⟨_, rfl, ?_⟩
    rw [List.singleton_append, List.map_cons, List.map_cons, values]

theorem filterAndPopulateAddressTxs_ok (known : ∀ hash ∈ c.mostWorkChain, c.Known hash) (entries : List AddressEntry) :
    ∃ kept, filterAndPopulateAddressTxs c entries = .ok kept ∧
      kept.map (·.value) = (entries.filter fun item => item.blockHash ∈ c.mostWorkChain).map (·.delta) := by
  rw [filterAndPopulateAddressTxs]
  split
  · next empty =>
    rw [List.isEmpty_iff.mp empty]
    exact ⟨[], rfl, rfl⟩
  · exact addressTransactions_ok fun item member => known item.blockHash (of_decide_eq_true (List.mem_filter.mp member).2)

theorem deltas_of_holdings {addressLen : Nat} (holdings : List.Forall₂ (Holding addressLen) items entries) :
    entries.map (·.delta) = items.map fun item => deltaOf item.2 := by
  induction holdings with
  | nil => rfl
  | cons holding _ ih => rw [List.map_cons, List.map_cons, ih, holding.delta]

/-- The totals agree in a state just when every entry is of a block of the index. -/
theorem totalsAgree_iff (sound : c.Sound) (holdings : List.Forall₂ (Holding address.length) (addressItems iterate address) entries)
    (fits : TotalsFit (addressItems iterate address)) (defined : p = .dev → Negatable (addressItems iterate address)) :
    TotalsAgree p c iterate address ↔ ∀ item ∈ entries, item.blockHash ∈ c.mostWorkChain := by
  have length := holdings.length_eq
  have all : ∀ {topCount data}, (addressItems iterate address).length ≤ topCount →
      getTopAddressData p iterate address topCount = .ok data →
        data.transactions = entries ∧ data.Sums (addressItems iterate address) := by
    intro topCount data enough returned
    obtain ⟨data', returned', shown, sums⟩ := getTopAddressData_ok holdings defined fits topCount
    cases returned.symm.trans returned'
    rw [List.take_of_length_le (by omega)] at shown
    exact ⟨shown, sums⟩
  obtain ⟨kept, filtered, values⟩ := filterAndPopulateAddressTxs_ok sound.known entries
  constructor
  · intro agree
    obtain ⟨data, returned, _⟩ := getTopAddressData_ok holdings defined fits (addressItems iterate address).length
    obtain ⟨shown, sums⟩ := all le_rfl returned
    obtain ⟨kept', filtered', counts⟩ := agree _ data le_rfl returned
    rw [shown] at filtered'
    cases filtered.symm.trans filtered'
    have same : (entries.filter fun item => item.blockHash ∈ c.mostWorkChain).length = entries.length := by
      have counted := congrArg List.length values
      rw [List.length_map, List.length_map] at counted
      rw [← counted, ← length, ← counts.count, sums.count]
    exact fun item member => of_decide_eq_true (List.length_filter_eq_length_iff.mp same item member)
  · intro onMain topCount data enough returned
    obtain ⟨shown, sums⟩ := all enough returned
    have every : (entries.filter fun item => item.blockHash ∈ c.mostWorkChain) = entries :=
      List.filter_eq_self.mpr fun item member => decide_eq_true (onMain item member)
    rw [every, deltas_of_holdings holdings] at values
    refine ⟨kept, shown ▸ filtered, ?_, ?_, ?_⟩
    · have counted := congrArg List.length values
      rw [List.length_map, List.length_map] at counted
      rw [sums.count, counted]
    · have amounts := congrArg (fun values : List Int64 => (values.map fun value => (-value.toInt).toNat).sum) values
      simp only [List.map_map] at amounts
      exact sums.spent.trans amounts.symm
    · have amounts := congrArg (fun values : List Int64 => (values.map fun value => value.toInt.toNat).sum) values
      simp only [List.map_map] at amounts
      exact sums.received.trans amounts.symm

/-! What an event does to the entries of an address. -/

theorem take_amendValue (blockHash : Hash) (delta : Int64) : (amendValue blockHash delta).take 32 = blockHash.1 := by
  rw [amendValue, List.take_left' blockHash.2]

/-- The step lemma: entries stay on the main chain under the events that keep them there, and
only under those. -/
theorem entriesOnMain_step (step : IndexedChain.Step p s event t) (before : EntriesOnMain address s) :
    EntriesOnMain address t ↔ KeepsEntriesOnMain p address s event := by
  obtain ⟨happens, stores⟩ := step
  constructor
  · intro after w again
    cases happens.symm.trans again
    refine ⟨fun hash onMain names => ?_, ?_⟩
    · cases event with
      | applied batch => exact (markAsDownloaded_mostWorkChain happens).symm ▸ onMain
      | header received => exact after hash (stores ▸ names)
      | headers page => exact after hash (stores ▸ names)
      | synced => exact after hash (stores ▸ names)
    · rintro batch rfl ingested block inBatch ⟨key, member, inRange⟩
      obtain ⟨delta, found⟩ := stores.written ingested inBatch member
      exact after _ ⟨key, _, found, inRange, take_amendValue _ delta⟩
  · intro keeps hash ⟨key, value, found, inRange, names⟩
    obtain ⟨kept, written⟩ := keeps _ happens
    have old : s.stores.amends key = some value → hash ∈ t.chainman.chain.mostWorkChain := by
      intro found
      have named : Names s.stores address hash := ⟨key, value, found, inRange, names⟩
      exact kept hash (before hash named) named
    cases event with
    | applied batch =>
      rcases stores.cases key with same | ⟨ingested, block, inBatch, value', found', writes, delta, shape⟩
      · exact old (same ▸ found)
      · cases found.symm.trans found'
        rw [shape, take_amendValue] at names
        rw [← Subtype.ext names]
        exact written batch rfl ingested block inBatch ⟨key, KnownBlock.mem_keys.mpr writes, inRange⟩
    | header received => exact old (stores ▸ found)
    | headers page => exact old (stores ▸ found)
    | synced => exact old (stores ▸ found)

theorem entriesOnMain_iff (iterates : Iterates s.stores iterate)
    (holdings : List.Forall₂ (Holding address.length) (addressItems iterate address) entries) :
    EntriesOnMain address s ↔ ∀ item ∈ entries, item.blockHash ∈ s.chainman.chain.mostWorkChain := by
  constructor
  · intro onMain entry member
    obtain ⟨item, inItems, holding⟩ := exists_left holdings member
    obtain ⟨found, inRange⟩ := ((iterates _ _).mem_iff item.1 item.2).mp inItems
    exact onMain _ ⟨item.1, item.2, found, inRange, (holding_iff.mp holding).2.2.1.symm⟩
  · intro onMain hash ⟨key, value, found, inRange, names⟩
    have inItems : (key, value) ∈ addressItems iterate address := ((iterates _ _).mem_iff key value).mpr ⟨found, inRange⟩
    obtain ⟨entry, member, holding⟩ := exists_right holdings inItems
    have same : hash = entry.blockHash := Subtype.ext (names.symm.trans (holding_iff.mp holding).2.2.1.symm)
    rw [same]
    exact onMain entry member

/-- The run lemma: events that keep the entries of the address on the main chain. -/
theorem entriesOnMain_of_run {start : IndexedChain} (empty : start.stores = .empty)
    (run : Run (Guarded (KeepsEntriesOnMain p address) (IndexedChain.Step p)) start events t) : EntriesOnMain address t := by
  refine run.invariant ?_ fun _ _ _ before guarded => (entriesOnMain_step guarded.2 before).mpr guarded.1
  rintro hash ⟨key, value, found, _⟩
  rw [empty] at found
  cases found

/-- In every run, the totals of an address that shares no keys agree with the transactions
on the main chain just when each of its entries is of a block there; and they agree in every state
of a run whose events keep its entries there. -/
theorem totals_of_run {codecs : AddressCodecs} {text : String} {human : Address} {start : IndexedChain}
    (sound : start.chainman.chain.Sound) (empty : start.stores = .empty) (run : Run (IndexedChain.Step p) start events t)
    (iterates : Iterates t.stores iterate) (parsed : parseAddress codecs text = some (address, human))
    (unshared : Unshared codecs (historyOf events) address human) (fits : TotalsFit (addressItems iterate address))
    (defined : p = .dev → Negatable (addressItems iterate address)) :
    (Run (Guarded (KeepsEntriesOnMain p address) (IndexedChain.Step p)) start events t →
      TotalsAgree p t.chainman.chain iterate address) ∧
      (TotalsAgree p t.chainman.chain iterate address ↔ EntriesOnMain address t) := by
  have soundEnd : t.chainman.chain.Sound :=
    run.invariant (P := fun s => s.chainman.chain.Sound) sound fun _ _ _ kept step => ChainEvent.sound step.1 kept
  obtain ⟨entries, holdings, _⟩ := items_of_unshared (indexedBy_of_run run empty) iterates parsed unshared
    (length_beBytes 8 0) (length_beBytes 8 (2 ^ 64 - 1))
  have agree : TotalsAgree p t.chainman.chain iterate address ↔ EntriesOnMain address t :=
    (totalsAgree_iff soundEnd holdings fits defined).trans (entriesOnMain_iff iterates holdings).symm
  exact ⟨fun guarded => agree.mpr (entriesOnMain_of_run empty guarded), agree⟩

/-! A block on each of two branches. -/

theorem spentOf_le (items : List (Bytes × Bytes)) : spentOf items ≤ items.length * 2 ^ 63 := by
  induction items with
  | nil => exact Nat.zero_le _
  | cons item items ih =>
    have least := (deltaOf item.2).le_toInt
    rw [spentOf_cons, List.length_cons]
    omega

theorem receivedOf_le (items : List (Bytes × Bytes)) : receivedOf items ≤ items.length * 2 ^ 63 := by
  induction items with
  | nil => exact Nat.zero_le _
  | cons item items ih =>
    have greatest := (deltaOf item.2).toInt_lt
    rw [receivedOf_cons, List.length_cons]
    omega

/-- A single entry fits. -/
theorem totalsFit_of_length (single : items.length ≤ 1) : TotalsFit items := by
  have spent := spentOf_le items
  have received := receivedOf_le items
  exact ⟨by omega, by omega, by omega⟩

def timedHeader (name parent : UInt8) : BlockHeaderOwned := { sampleHeader name parent with timestamp := 1 }

def timedBlock : KnownBlock := payingBlock (timedHeader 2 1) shortScript

def timedKey : Bytes := amendKey shortKey 1 (ByteArr.fill 32 7)

theorem keys_timedBlock : timedBlock.keys = [timedKey] := by decide

theorem ingested_timedBlock : Ingested [timedBlock] := by
  rw [Ingested, List.flatMap_singleton, keys_timedBlock]
  exact List.nodup_singleton _

theorem inRange_timedKey : InRange shortKey timedKey :=
  between_append_iff.mpr ⟨beBytes 8 (2 ^ 64 - 2) ++ (ByteArr.fill 32 7).1, by decide, by decide, by decide⟩

theorem found_timedKey {s t : Stores} (indexed : IndexesBatch p s [timedBlock] t) :
    ∃ delta, t.amends timedKey = some (amendValue timedBlock.header.hash delta) := by
  refine indexed.written ingested_timedBlock (List.mem_singleton.mpr rfl) ?_
  rw [keys_timedBlock]
  exact List.mem_singleton.mpr rfl

/-- The block leaves one entry for the address. -/
theorem items_timedBlock {s : Stores} (run : IndexedBy p [[timedBlock]] s) (iterates : Iterates s iterate) :
    TotalsFit (addressItems iterate shortKey) := by
  have lists := iterates (shortKey ++ beBytes 8 0) (shortKey ++ beBytes 8 (2 ^ 64 - 1))
  have keys : ∀ item ∈ addressItems iterate shortKey, item.1 = timedKey := by
    intro item member
    obtain ⟨found, _⟩ := (lists.mem_iff item.1 item.2).mp member
    obtain ⟨batch, inHistory, _, block, inBatch, writes, _⟩ := run.origin found
    cases List.mem_singleton.mp inHistory
    cases List.mem_singleton.mp inBatch
    have inKeys := KnownBlock.mem_keys.mpr writes
    rw [keys_timedBlock] at inKeys
    exact List.mem_singleton.mp inKeys
  refine totalsFit_of_length ?_
  have strict : StrictKeys (addressItems iterate shortKey) := lists.strict
  generalize addressItems iterate shortKey = items at keys strict
  match items with
  | [] => exact Nat.zero_le _
  | [_] => exact le_rfl
  | first :: second :: rest =>
    have above := (List.pairwise_cons.mp strict).1 second.1 (List.mem_cons_self)
    rw [keys first List.mem_cons_self, keys second (List.mem_cons_of_mem _ List.mem_cons_self)] at above
    exact absurd above (lt_irrefl _)

/-- The chain after an event that returns. -/
def ChainEvent.after (p : Profile) (w : Chainman) (event : ChainEvent) : Chainman :=
  match event.next p w with
  | .ok w' => w'
  | _ => w

theorem ChainEvent.next_after {w : Chainman} (returns : ∃ w', event.next p w = .ok w') :
    event.next p w = .ok (event.after p w) := by
  obtain ⟨w', result⟩ := returns
  rw [ChainEvent.after, result]

def firstEvents : List ChainEvent := [.header (timedHeader 2 1), .applied [(timedBlock, [])]]

def afterEvents (w : Chainman) (events : List ChainEvent) : Chainman :=
  events.foldl (fun w event => event.after .release w) w

theorem sampleIndexed_sound : sampleWatcher.chainman.chain.Sound := by
  refine ⟨sampleIndexed_wellFormed, fun hash member => ?_⟩
  rw [Finset.mem_singleton.mp (show hash ∈ ({sampleHash 1} : Finset Hash) from member)]
  rfl

/-- The header of the block and then the block. -/
theorem exists_firstEvents : ∃ s : Stores,
    Run (Guarded (KeepsEntriesOnMain .release shortKey) (IndexedChain.Step .release)) ⟨sampleWatcher.chainman, .empty⟩
      firstEvents ⟨afterEvents sampleWatcher.chainman firstEvents, s⟩ ∧
      IndexesBatch .release .empty [timedBlock] s := by
  obtain ⟨s, indexed⟩ := exists_indexesBatch .empty [timedBlock]
  have first : (ChainEvent.header (timedHeader 2 1)).next .release sampleWatcher.chainman =
      .ok (afterEvents sampleWatcher.chainman (firstEvents.take 1)) := ChainEvent.next_after ⟨_, rfl⟩
  have second : (ChainEvent.applied [(timedBlock, [])]).next .release (afterEvents sampleWatcher.chainman (firstEvents.take 1)) =
      .ok (afterEvents sampleWatcher.chainman firstEvents) := ChainEvent.next_after ⟨_, rfl⟩
  have nothing : ∀ hash, ¬ Names .empty shortKey hash := by
    rintro hash ⟨key, value, found, _⟩
    cases found
  refine ⟨s, .cons (t := ⟨afterEvents sampleWatcher.chainman (firstEvents.take 1), .empty⟩) ⟨?_, first, rfl⟩
    (.single ⟨?_, second, indexed⟩), indexed⟩
  · intro w _
    exact ⟨fun hash _ names => absurd names (nothing hash), nofun⟩
  · intro w happens
    cases second.symm.trans happens
    refine ⟨fun hash _ names => absurd names (nothing hash), ?_⟩
    intro batch same _ block inBatch _
    cases same
    cases List.mem_singleton.mp inBatch
    decide

theorem totals_of_run_extension :
    ∃ s iterate, Run (IndexedChain.Step .release) ⟨sampleWatcher.chainman, .empty⟩ firstEvents
        ⟨afterEvents sampleWatcher.chainman firstEvents, s⟩ ∧ Iterates s iterate ∧ s.amends timedKey ≠ none ∧
      TotalsAgree .release (afterEvents sampleWatcher.chainman firstEvents).chain iterate shortKey := by
  obtain ⟨s, guarded, indexed⟩ := exists_firstEvents
  have run := guarded.mono fun _ _ _ step => step.2
  obtain ⟨iterate, iterates⟩ := (indexedBy_of_run run rfl).exists_iterates
  obtain ⟨delta, found⟩ := found_timedKey indexed
  have present : s.amends timedKey ≠ none := by
    rw [found]
    exact Option.some_ne_none _
  refine ⟨s, iterate, run, iterates, present, ?_⟩
  exact (totals_of_run sampleIndexed_sound rfl run iterates parseAddress_shortKey (unshared_shortKey (timedHeader 2 1))
    (items_timedBlock (indexedBy_of_run run rfl) iterates) nofun).1 guarded

def branchEvents : List ChainEvent := firstEvents ++ [.header (timedHeader 3 1)]

/-- A header beside the one of the block takes the block off the main chain, and the totals of
the address still count it. -/
theorem totals_of_run_fails :
    ∃ s iterate, Run (IndexedChain.Step .release) ⟨sampleWatcher.chainman, .empty⟩ branchEvents
        ⟨afterEvents sampleWatcher.chainman branchEvents, s⟩ ∧ Iterates s iterate ∧
      parseAddress hexCodecs (hexEncode shortKey) = some (shortKey, .p2pkShort (hexEncode shortKey)) ∧
      Unshared hexCodecs (historyOf branchEvents) shortKey (.p2pkShort (hexEncode shortKey)) ∧
      TotalsFit (addressItems iterate shortKey) ∧
      ¬ TotalsAgree .release (afterEvents sampleWatcher.chainman branchEvents).chain iterate shortKey := by
  obtain ⟨s, guarded, indexed⟩ := exists_firstEvents
  have third : (ChainEvent.header (timedHeader 3 1)).next .release (afterEvents sampleWatcher.chainman firstEvents) =
      .ok (afterEvents sampleWatcher.chainman branchEvents) := ChainEvent.next_after ⟨_, rfl⟩
  have run := (guarded.mono fun _ _ _ step => step.2).snoc (t := ⟨_, s⟩) ⟨third, rfl⟩
  have history := indexedBy_of_run run rfl
  obtain ⟨iterate, iterates⟩ := history.exists_iterates
  have unshared := unshared_shortKey (timedHeader 2 1)
  have fits := items_timedBlock history iterates
  refine ⟨s, iterate, run, iterates, parseAddress_shortKey, unshared, fits, fun agree => ?_⟩
  obtain ⟨entries, holdings, _⟩ := items_of_unshared history iterates parseAddress_shortKey unshared
    (length_beBytes 8 0) (length_beBytes 8 (2 ^ 64 - 1))
  have sound : (afterEvents sampleWatcher.chainman branchEvents).chain.Sound :=
    run.invariant (P := fun s => s.chainman.chain.Sound) sampleIndexed_sound fun _ _ _ kept step => ChainEvent.sound step.1 kept
  have gone : timedBlock.header.hash ∉ (afterEvents sampleWatcher.chainman branchEvents).chain.mostWorkChain := by decide
  have entries := (totalsAgree_iff sound holdings fits fun impossible => by cases impossible).mp agree
  have onMain := (entriesOnMain_iff (s := ⟨_, s⟩) iterates holdings).mpr entries
  obtain ⟨delta, found⟩ := found_timedKey indexed
  have names : Names s shortKey timedBlock.header.hash := ⟨timedKey, _, found, inRange_timedKey, take_amendValue _ delta⟩
  exact gone (onMain _ names)

end Bitlens

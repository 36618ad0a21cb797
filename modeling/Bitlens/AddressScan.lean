import Bitlens.Addresses
import Bitlens.Lib.Pairs

namespace Bitlens
open Lib

/-- A transaction that changed the balance of an address, with its block and the change. -/
structure AddressEntry where
  txHash : Hash
  blockHash : Hash
  delta : Int64

/-- The change that a stored value ends with. -/
def deltaOf (value : Bytes) : Int64 :=
  (UInt64.ofNat (leNat ((value.drop 32).take 8))).toInt64

/-- An item of the iterator; other lengths than the expected ones panic. -/
def readEntry (expectedKeyLen : Nat) (key value : Bytes) : Outcome AddressEntry :=
  if key.length = expectedKeyLen ∧ value.length = 40 then do
    let txHash ← Outcome.unwrap (ByteArr.ofBytes 32 (key.drop (expectedKeyLen - 32)))
    let blockHash ← Outcome.unwrap (ByteArr.ofBytes 32 (value.take 32))
    pure ⟨txHash, blockHash, deltaOf value⟩
  else .fault

/-- The loop of `get_address_entires`: it stops when the limit is just reached, so that
a limit of zero is no limit. -/
def addressEntires (expectedKeyLen limit : Nat) : List (Bytes × Bytes) → List AddressEntry → Outcome (List AddressEntry)
  | [], results => .ok results
  | (key, value) :: rest, results => do
    let entry ← readEntry expectedKeyLen key value
    if results.length + 1 = limit then pure (results ++ [entry])
    else addressEntires expectedKeyLen limit rest (results ++ [entry])

/-- `get_address_entires`. The items that an iterator over `ADDRESSES_DB` yields between
two bounds are given by `iterate`. -/
def getAddressEntires (iterate : Bytes → Bytes → List (Bytes × Bytes)) (address : Bytes)
    (fromTimestamp toTimestamp : UInt64) (limit : Nat) : Outcome (List AddressEntry) :=
  let start := address ++ beBytes 8 (2 ^ 64 - 1 - toTimestamp.toNat)
  let stop := address ++ beBytes 8 (2 ^ 64 - 1 - fromTimestamp.toNat)
  addressEntires (address.length + 8 + 32) limit (iterate start stop) []

structure TopAddressData where
  transactions : List AddressEntry
  totalTxs : Nat
  totalSpent : Nat
  totalReceived : Nat
  firstSeen : Nat

/-- One round of the loop of `get_top_address_data`. -/
def TopAddressData.addItem (p : Profile) (addressLen topCount : Nat) (data : TopAddressData) (key value : Bytes) :
    Outcome TopAddressData := do
  let entry ← readEntry (addressLen + 8 + 32) key value
  let transactions := if data.transactions.length < topCount then data.transactions ++ [entry] else data.transactions
  let totalTxs ← p.add 64 data.totalTxs 1
  let lastTime := 2 ^ 64 - 1 - beNat ((key.drop addressLen).take 8)
  if entry.delta < 0 then
    let amount ← negI64 p entry.delta
    let totalSent ← p.add 64 data.totalSpent amount.toUInt64.toNat
    pure ⟨transactions, totalTxs, totalSent, data.totalReceived, lastTime⟩
  else
    let totalReceived ← p.add 64 data.totalReceived entry.delta.toUInt64.toNat
    pure ⟨transactions, totalTxs, data.totalSpent, totalReceived, lastTime⟩

def topAddressLoop (p : Profile) (addressLen topCount : Nat) :
    List (Bytes × Bytes) → TopAddressData → Outcome TopAddressData
  | [], data => .ok data
  | (key, value) :: rest, data => do
    let data ← data.addItem p addressLen topCount key value
    topAddressLoop p addressLen topCount rest data

/-- The keys between the bounds of `get_top_address_data`: all that begin with the
address, but those at the time zero. -/
def InRange (address key : Bytes) : Prop :=
  address ++ beBytes 8 0 ≤ key ∧ key < address ++ beBytes 8 (2 ^ 64 - 1)

def addressItems (iterate : Bytes → Bytes → List (Bytes × Bytes)) (address : Bytes) : List (Bytes × Bytes) :=
  iterate (address ++ beBytes 8 0) (address ++ beBytes 8 (2 ^ 64 - 1))

def getTopAddressData (p : Profile) (iterate : Bytes → Bytes → List (Bytes × Bytes)) (address : Bytes) (topCount : Nat) :
    Outcome TopAddressData :=
  topAddressLoop p address.length topCount (addressItems iterate address) ⟨[], 0, 0, 0, 0⟩

/-- What the negative changes among the items add up to. -/
def spentOf (items : List (Bytes × Bytes)) : Nat :=
  (items.map fun item => (-(deltaOf item.2).toInt).toNat).sum

/-- What the positive changes among the items add up to. -/
def receivedOf (items : List (Bytes × Bytes)) : Nat :=
  (items.map fun item => (deltaOf item.2).toInt.toNat).sum

/-- The totals of the items fit their words. -/
structure TotalsFit (items : List (Bytes × Bytes)) : Prop where
  count : items.length < 2 ^ 64
  spent : spentOf items < 2 ^ 64
  received : receivedOf items < 2 ^ 64

/-- The negation of `i64` is defined for each change. -/
def Negatable (items : List (Bytes × Bytes)) : Prop :=
  ∀ item ∈ items, deltaOf item.2 ≠ Int64.minValue

/-- The lengths that the loops assert. -/
def WellSized (addressLen : Nat) (items : List (Bytes × Bytes)) : Prop :=
  ∀ item ∈ items, item.1.length = addressLen + 8 + 32 ∧ item.2.length = 40

/-- The entry that a well sized item holds. -/
def Holding (addressLen : Nat) (item : Bytes × Bytes) (entry : AddressEntry) : Prop :=
  readEntry (addressLen + 8 + 32) item.1 item.2 = .ok entry

/-! Signed amounts as words. -/

theorem toNat_toUInt64 (delta : Int64) : (delta.toUInt64.toNat : Int) = delta.toInt % 2 ^ 64 := by
  have cases : delta.toInt = _ := BitVec.toInt_eq_toNat_cond delta.toBitVec
  have small := delta.toUInt64.toNat_lt
  rw [Int64.toNat_toBitVec] at cases
  rw [cases]
  split <;> omega

theorem toInt_neg_of_lt {delta : Int64} (negative : delta < 0) : delta.toInt < 0 :=
  Int64.lt_iff_toInt_lt.mp negative

theorem toInt_nonneg_of_not_lt {delta : Int64} (other : ¬ delta < 0) : 0 ≤ delta.toInt := by
  rw [Int64.lt_iff_toInt_lt] at other
  exact not_lt.mp other

theorem toNat_of_not_lt {delta : Int64} (other : ¬ delta < 0) : delta.toUInt64.toNat = delta.toInt.toNat := by
  have nonneg := toInt_nonneg_of_not_lt other
  have whole := toNat_toUInt64 delta
  have upper := delta.toInt_lt
  omega

theorem toNat_neg_of_lt {delta : Int64} (negative : delta < 0) : (-delta).toUInt64.toNat = (-delta.toInt).toNat := by
  have below := toInt_neg_of_lt negative
  have least := delta.le_toInt
  have whole := toNat_toUInt64 (-delta)
  have cast : (2 ^ 64 : Int) = ((2 ^ 64 : Nat) : Int) := rfl
  rw [Int64.toInt_neg, cast, Int.bmod_emod] at whole
  omega

/-! What the loops read. -/

variable {p : Profile} {addressLen topCount limit : Nat} {item : Bytes × Bytes} {items : List (Bytes × Bytes)}
  {entry : AddressEntry} {entries : List AddressEntry} {data result : TopAddressData}

theorem holding_iff : Holding addressLen item entry ↔
    (item.1.length = addressLen + 8 + 32 ∧ item.2.length = 40) ∧ entry.txHash.1 = item.1.drop (addressLen + 8) ∧
      entry.blockHash.1 = item.2.take 32 ∧ entry.delta = deltaOf item.2 := by
  have start : addressLen + 8 + 32 - 32 = addressLen + 8 := by omega
  rw [Holding, readEntry, start]
  by_cases sized : item.1.length = addressLen + 8 + 32 ∧ item.2.length = 40
  · have keyPart : (item.1.drop (addressLen + 8)).length = 32 := by
      rw [List.length_drop]
      omega
    have valuePart : (item.2.take 32).length = 32 := by
      rw [List.length_take]
      omega
    rw [if_pos sized, ByteArr.ofBytes, dif_pos keyPart, ByteArr.ofBytes, dif_pos valuePart]
    simp only [Outcome.unwrap_some, Outcome.ok_bind, Outcome.pure_def, Outcome.ok.injEq, sized, true_and]
    constructor
    · rintro rfl
      exact ⟨rfl, rfl, rfl⟩
    · intro ⟨txHash, blockHash, delta⟩
      cases entry
      congr 1
      · exact Subtype.ext txHash.symm
      · exact Subtype.ext blockHash.symm
      · exact delta.symm
  · rw [if_neg sized]
    simp only [sized, false_and, reduceCtorEq]

theorem Holding.delta (holding : Holding addressLen item entry) : entry.delta = deltaOf item.2 :=
  (holding_iff.mp holding).2.2.2

theorem exists_holding (sized : item.1.length = addressLen + 8 + 32 ∧ item.2.length = 40) :
    ∃ entry, Holding addressLen item entry := by
  refine ⟨⟨⟨item.1.drop (addressLen + 8), ?_⟩, ⟨item.2.take 32, ?_⟩, deltaOf item.2⟩, holding_iff.mpr ⟨sized, rfl, rfl, rfl⟩⟩
  · rw [List.length_drop]
    omega
  · rw [List.length_take]
    omega

theorem exists_holdings (sized : WellSized addressLen items) : ∃ entries, List.Forall₂ (Holding addressLen) items entries :=
  forall₂_of_forall_exists fun item member => exists_holding (sized item member)

/-! The loop of `get_address_entires`. -/

/-- What the loop keeps of the entries. -/
def shown (limit : Nat) (entries : List AddressEntry) : List AddressEntry :=
  if limit = 0 then entries else entries.take limit

theorem isPrefix_shown (limit : Nat) (entries : List AddressEntry) : shown limit entries <+: entries := by
  unfold shown
  split
  · exact List.prefix_refl entries
  · exact List.take_prefix limit entries

theorem addressEntires_eq (holdings : List.Forall₂ (Holding addressLen) items entries) {results : List AddressEntry}
    (room : limit = 0 ∨ results.length < limit) :
    addressEntires (addressLen + 8 + 32) limit items results = .ok (results ++ shown (limit - results.length) entries) := by
  induction holdings generalizing results with
  | nil =>
    have nothing : shown (limit - results.length) [] = [] := by
      rw [shown, List.take_nil, ite_self]
    rw [addressEntires, nothing, List.append_nil]
  | @cons item entry items entries holding _ ih =>
    rw [addressEntires, show readEntry _ item.1 item.2 = .ok entry from holding, Outcome.ok_bind]
    by_cases full : results.length + 1 = limit
    · have last : limit - results.length = 1 := by omega
      rw [if_pos full, last]
      rfl
    · have more : shown (limit - results.length) (entry :: entries) =
          entry :: shown (limit - (results ++ [entry]).length) entries := by
        rw [List.length_append, List.length_singleton]
        rcases room with unlimited | room
        · rw [unlimited, Nat.zero_sub, Nat.zero_sub]
          rfl
        · have step : limit - results.length = limit - (results.length + 1) + 1 := by omega
          rw [shown, if_neg (by omega), step, List.take_succ_cons, shown, if_neg (by omega)]
      rw [if_neg full, ih (room.imp_right fun below => by rw [List.length_append, List.length_singleton]; omega), more,
        List.append_assoc, List.singleton_append]

/-! The loop of `get_top_address_data`. -/

theorem spentOf_cons : spentOf (item :: items) = (-(deltaOf item.2).toInt).toNat + spentOf items := by
  rw [spentOf, List.map_cons, List.sum_cons, spentOf]

theorem receivedOf_cons : receivedOf (item :: items) = (deltaOf item.2).toInt.toNat + receivedOf items := by
  rw [receivedOf, List.map_cons, List.sum_cons, receivedOf]

theorem take_push (front : List AddressEntry) :
    (if (front.take topCount).length < topCount then front.take topCount ++ [entry] else front.take topCount) =
      (front ++ [entry]).take topCount := by
  by_cases room : front.length < topCount
  · have all : front.take topCount = front := List.take_of_length_le (by omega)
    have more : (front ++ [entry]).length ≤ topCount := by
      rw [List.length_append, List.length_singleton]
      omega
    rw [all, if_pos room, List.take_of_length_le more]
  · have full : ¬ (front.take topCount).length < topCount := by
      rw [List.length_take]
      omega
    rw [if_neg full, List.take_append_of_le_length (by omega)]

/-- One round adds the change of the item to its total. -/
theorem addItem_ok (holding : Holding addressLen item entry) (defined : p = .dev → deltaOf item.2 ≠ Int64.minValue)
    (count : data.totalTxs + 1 < 2 ^ 64) (spent : data.totalSpent + (-(deltaOf item.2).toInt).toNat < 2 ^ 64)
    (received : data.totalReceived + (deltaOf item.2).toInt.toNat < 2 ^ 64) :
    ∃ lastTime, data.addItem p addressLen topCount item.1 item.2 = .ok
      ⟨if data.transactions.length < topCount then data.transactions ++ [entry] else data.transactions, data.totalTxs + 1,
        data.totalSpent + (-(deltaOf item.2).toInt).toNat, data.totalReceived + (deltaOf item.2).toInt.toNat, lastTime⟩ := by
  refine ⟨2 ^ 64 - 1 - beNat ((item.1.drop addressLen).take 8), ?_⟩
  have read : readEntry (addressLen + 8 + 32) item.1 item.2 = .ok entry := holding
  rw [TopAddressData.addItem, read, Outcome.ok_bind, Profile.add_of_lt count, Outcome.ok_bind]
  dsimp only
  rw [holding.delta]
  by_cases negative : deltaOf item.2 < 0
  · have amount := toNat_neg_of_lt negative
    have nothing : (deltaOf item.2).toInt.toNat = 0 := by
      have below := toInt_neg_of_lt negative
      omega
    rw [if_pos negative, negI64_ok defined, Outcome.ok_bind, amount, Profile.add_of_lt spent, Outcome.ok_bind, nothing]
    rfl
  · have amount := toNat_of_not_lt negative
    have nothing : (-(deltaOf item.2).toInt).toNat = 0 := by
      have nonneg := toInt_nonneg_of_not_lt negative
      omega
    rw [if_neg negative, amount, Profile.add_of_lt received, Outcome.ok_bind, nothing]
    rfl

theorem topAddressLoop_ok (holdings : List.Forall₂ (Holding addressLen) items entries)
    (defined : p = .dev → Negatable items) {front : List AddressEntry} (shown : data.transactions = front.take topCount)
    (count : data.totalTxs + items.length < 2 ^ 64) (spent : data.totalSpent + spentOf items < 2 ^ 64)
    (received : data.totalReceived + receivedOf items < 2 ^ 64) :
    ∃ firstSeen, topAddressLoop p addressLen topCount items data = .ok
      ⟨(front ++ entries).take topCount, data.totalTxs + items.length, data.totalSpent + spentOf items,
        data.totalReceived + receivedOf items, firstSeen⟩ := by
  induction holdings generalizing data front with
  | nil =>
    refine ⟨data.firstSeen, ?_⟩
    rw [topAddressLoop, List.append_nil, ← shown]
    rfl
  | @cons item entry items entries holding _ ih =>
    rw [List.length_cons] at count
    rw [spentOf_cons] at spent
    rw [receivedOf_cons] at received
    obtain ⟨lastTime, round⟩ := @addItem_ok p addressLen topCount item entry data holding
      (fun dev => defined dev item List.mem_cons_self) (by omega) (by omega) (by omega)
    rw [shown, take_push] at round
    let next : TopAddressData := ⟨(front ++ [entry]).take topCount, data.totalTxs + 1,
      data.totalSpent + (-(deltaOf item.2).toInt).toNat, data.totalReceived + (deltaOf item.2).toInt.toNat, lastTime⟩
    obtain ⟨firstSeen, rest⟩ := @ih next (fun dev other member => defined dev other (List.mem_cons_of_mem _ member))
      (front ++ [entry]) rfl (by dsimp only [next]; omega) (by dsimp only [next]; omega) (by dsimp only [next]; omega)
    refine ⟨firstSeen, ?_⟩
    rw [topAddressLoop, round, Outcome.ok_bind, rest, List.length_cons, spentOf_cons, receivedOf_cons, List.append_assoc,
      List.singleton_append]
    simp only [next, Nat.add_assoc, Nat.add_comm 1]

/-- In `release` the totals wrap and the loop gets through. -/
theorem addItem_release (holding : Holding addressLen item entry) :
    ∃ next, data.addItem .release addressLen topCount item.1 item.2 = .ok next ∧ next.transactions =
      if data.transactions.length < topCount then data.transactions ++ [entry] else data.transactions := by
  have read : readEntry (addressLen + 8 + 32) item.1 item.2 = .ok entry := holding
  have defined : ∀ delta, negI64 .release delta = .ok (-delta) := fun delta =>
    negI64_ok fun impossible => by cases impossible
  obtain ⟨totalTxs, counted⟩ := @Profile.release_add 64 data.totalTxs 1
  rw [TopAddressData.addItem, read, Outcome.ok_bind, counted, Outcome.ok_bind]
  dsimp only
  by_cases negative : entry.delta < 0
  · obtain ⟨totalSent, added⟩ := @Profile.release_add 64 data.totalSpent (-entry.delta).toUInt64.toNat
    rw [if_pos negative, defined, Outcome.ok_bind, added]
    exact ⟨_, rfl, rfl⟩
  · obtain ⟨totalReceived, added⟩ := @Profile.release_add 64 data.totalReceived entry.delta.toUInt64.toNat
    rw [if_neg negative, added]
    exact ⟨_, rfl, rfl⟩

theorem topAddressLoop_release (holdings : List.Forall₂ (Holding addressLen) items entries) {front : List AddressEntry}
    (shown : data.transactions = front.take topCount) :
    ∃ result, topAddressLoop .release addressLen topCount items data = .ok result ∧
      result.transactions = (front ++ entries).take topCount := by
  induction holdings generalizing data front with
  | nil =>
    refine ⟨data, rfl, ?_⟩
    rw [List.append_nil, shown]
  | @cons item entry items entries holding _ ih =>
    obtain ⟨next, round, more⟩ := @addItem_release addressLen topCount item entry data holding
    rw [shown, take_push] at more
    obtain ⟨result, rest, transactions⟩ := @ih next (front ++ [entry]) more
    refine ⟨result, ?_, ?_⟩
    · rw [topAddressLoop, round, Outcome.ok_bind, rest]
    · rw [transactions, List.append_assoc, List.singleton_append]

/-- The totals so far fit their words. -/
structure TopAddressData.Fits (data : TopAddressData) : Prop where
  count : data.totalTxs < 2 ^ 64
  spent : data.totalSpent < 2 ^ 64
  received : data.totalReceived < 2 ^ 64

/-- In `dev` a round returns only totals that fit. -/
theorem fits_of_addItem (holding : Holding addressLen item entry) (fits : data.Fits)
    (round : data.addItem .dev addressLen topCount item.1 item.2 = .ok result) :
    deltaOf item.2 ≠ Int64.minValue ∧ result.Fits ∧ result.totalTxs = data.totalTxs + 1 ∧
      result.totalSpent = data.totalSpent + (-(deltaOf item.2).toInt).toNat ∧
      result.totalReceived = data.totalReceived + (deltaOf item.2).toInt.toNat := by
  have read : readEntry (addressLen + 8 + 32) item.1 item.2 = .ok entry := holding
  rw [TopAddressData.addItem, read, Outcome.ok_bind] at round
  obtain ⟨totalTxs, counted, round⟩ := Outcome.bind_eq_ok.mp round
  obtain ⟨countFits, rfl⟩ := Profile.dev_add_eq_ok.mp counted
  dsimp only at round
  rw [holding.delta] at round
  by_cases negative : deltaOf item.2 < 0
  · have below := toInt_neg_of_lt negative
    rw [if_pos negative] at round
    obtain ⟨amount, negated, round⟩ := Outcome.bind_eq_ok.mp round
    obtain ⟨totalSent, added, round⟩ := Outcome.bind_eq_ok.mp round
    obtain ⟨spentFits, rfl⟩ := Profile.dev_add_eq_ok.mp added
    have defined : deltaOf item.2 ≠ Int64.minValue := by
      intro least
      rw [negI64, if_pos ⟨rfl, least⟩] at negated
      cases negated
    rw [negI64_ok fun _ => defined] at negated
    cases negated
    cases round
    rw [toNat_neg_of_lt negative] at spentFits ⊢
    exact ⟨defined, ⟨countFits, spentFits, fits.received⟩, rfl, rfl, by dsimp only; omega⟩
  · have nonneg := toInt_nonneg_of_not_lt negative
    rw [if_neg negative] at round
    obtain ⟨totalReceived, added, round⟩ := Outcome.bind_eq_ok.mp round
    obtain ⟨receivedFits, rfl⟩ := Profile.dev_add_eq_ok.mp added
    cases round
    rw [toNat_of_not_lt negative] at receivedFits ⊢
    refine ⟨?_, ⟨countFits, fits.spent, receivedFits⟩, rfl, by dsimp only; omega, rfl⟩
    intro least
    rw [least] at nonneg
    exact absurd nonneg (by decide)

/-- In `dev` the loop returns only totals that fit. -/
theorem fits_of_topAddressLoop (holdings : List.Forall₂ (Holding addressLen) items entries) (fits : data.Fits)
    (returned : topAddressLoop .dev addressLen topCount items data = .ok result) :
    Negatable items ∧ result.Fits ∧ result.totalTxs = data.totalTxs + items.length ∧
      result.totalSpent = data.totalSpent + spentOf items ∧ result.totalReceived = data.totalReceived + receivedOf items := by
  induction holdings generalizing data with
  | nil =>
    cases returned
    exact ⟨fun _ member => (List.not_mem_nil member).elim, fits, rfl, rfl, rfl⟩
  | @cons item entry items entries holding _ ih =>
    rw [topAddressLoop] at returned
    obtain ⟨next, round, returned⟩ := Outcome.bind_eq_ok.mp returned
    obtain ⟨defined, nextFits, count, spent, received⟩ := fits_of_addItem holding fits round
    obtain ⟨others, resultFits, counts, spents, receiveds⟩ := ih nextFits returned
    refine ⟨List.forall_mem_cons.mpr ⟨defined, others⟩, resultFits, ?_, ?_, ?_⟩
    · rw [List.length_cons]
      omega
    · rw [spentOf_cons]
      omega
    · rw [receivedOf_cons]
      omega

theorem wellSized_of_topAddressLoop (returned : topAddressLoop p addressLen topCount items data = .ok result) :
    WellSized addressLen items := by
  induction items generalizing data with
  | nil => exact fun _ member => (List.not_mem_nil member).elim
  | cons item items ih =>
    rw [topAddressLoop] at returned
    obtain ⟨next, round, rest⟩ := Outcome.bind_eq_ok.mp returned
    obtain ⟨entry, read, _⟩ := Outcome.bind_eq_ok.mp round
    exact List.forall_mem_cons.mpr ⟨(holding_iff.mp read).1, ih rest⟩

/-! Both functions. -/

variable {iterate : Bytes → Bytes → List (Bytes × Bytes)} {address : Bytes}

/-- The numbers of an answer are those of the items of the address. -/
structure TopAddressData.Sums (data : TopAddressData) (items : List (Bytes × Bytes)) : Prop where
  count : data.totalTxs = items.length
  spent : data.totalSpent = spentOf items
  received : data.totalReceived = receivedOf items

theorem getTopAddressData_ok (holdings : List.Forall₂ (Holding address.length) (addressItems iterate address) entries)
    (defined : p = .dev → Negatable (addressItems iterate address)) (fits : TotalsFit (addressItems iterate address))
    (topCount : Nat) :
    ∃ data, getTopAddressData p iterate address topCount = .ok data ∧ data.transactions = entries.take topCount ∧
      data.Sums (addressItems iterate address) := by
  obtain ⟨firstSeen, result⟩ := @topAddressLoop_ok p address.length topCount _ _ ⟨[], 0, 0, 0, 0⟩ holdings defined []
    List.take_nil.symm (by simpa using fits.count) (by simpa using fits.spent) (by simpa using fits.received)
  refine ⟨_, result, rfl, ?_, ?_, ?_⟩
  · exact Nat.zero_add _
  · exact Nat.zero_add _
  · exact Nat.zero_add _

theorem getTopAddressData_release (holdings : List.Forall₂ (Holding address.length) (addressItems iterate address) entries)
    (topCount : Nat) :
    ∃ data, getTopAddressData .release iterate address topCount = .ok data ∧ data.transactions = entries.take topCount :=
  @topAddressLoop_release address.length topCount _ _ ⟨[], 0, 0, 0, 0⟩ holdings [] List.take_nil.symm

theorem fits_of_getTopAddressData (holdings : List.Forall₂ (Holding address.length) (addressItems iterate address) entries)
    (returned : getTopAddressData .dev iterate address topCount = .ok data) :
    Negatable (addressItems iterate address) ∧ TotalsFit (addressItems iterate address) := by
  obtain ⟨defined, fits, count, spent, received⟩ :=
    fits_of_topAddressLoop holdings ⟨by decide, by decide, by decide⟩ returned
  refine ⟨defined, ?_, ?_, ?_⟩
  · have counted := fits.count
    dsimp only at count
    omega
  · have spentFits := fits.spent
    dsimp only at spent
    omega
  · have receivedFits := fits.received
    dsimp only at received
    omega

end Bitlens

import Bitlens.AddressTotals
import Bitlens.AddressText
import Bitlens.Lib.Distinct
import Mathlib.Data.String.Basic

namespace Bitlens
open Lib

/-! Addresses are ordered by their kind and then by their text. -/

def Address.kind : Address → Nat
  | .p2pkFull _ => 0
  | .p2pkShort _ => 1
  | .p2pkh _ => 2
  | .p2sh _ => 3
  | .p2wsh _ => 4
  | .p2wpkh _ => 5
  | .taproot _ => 6
  | .opReturn => 7
  | .unknown => 8
  | .coinbase => 9

def Address.text : Address → String
  | .p2pkFull value | .p2pkShort value | .p2pkh value | .p2sh value | .p2wsh value | .p2wpkh value | .taproot value => value
  | .opReturn | .unknown | .coinbase => ""

def Address.place (address : Address) : Nat ×ₗ String :=
  toLex (address.kind, address.text)

theorem Address.place_injective : Function.Injective Address.place := by
  intro a b same
  obtain ⟨kind, text⟩ := Prod.mk.inj (toLex.injective same)
  cases a <;> cases b <;> first | exact congrArg _ text | rfl | cases kind

instance : LinearOrder Address where
  le a b := a.place ≤ b.place
  lt a b := a.place < b.place
  le_refl a := le_refl a.place
  le_trans _ _ _ := le_trans
  lt_iff_le_not_ge _ _ := lt_iff_le_not_ge
  le_antisymm _ _ low high := Address.place_injective (le_antisymm low high)
  le_total a b := le_total a.place b.place
  toDecidableLE a b := inferInstanceAs (Decidable (a.place ≤ b.place))
  toDecidableLT a b := inferInstanceAs (Decidable (a.place < b.place))
  toDecidableEq := inferInstance

/-! The outputs of the transactions. -/

/-- `get_transaction_outputs`, which reads in a task of its own. -/
def getTransactionOutputs (store : Hash → Option Bytes) (hash : Hash) : Outcome (List TxOut) :=
  match store hash with
  | none => .err
  | some data =>
    if data.isEmpty then .err
    else spawned do
      let (result, _) ← deserializeArrayOwned deserializeTxOut data
      pure result

/-- The outputs that inputs spend; an index out of range panics. -/
def spentOutputs (store : Hash → Option Bytes) (txins : List TxIn) : Outcome (List TxOut) :=
  Outcome.mapM (fun txin : TxIn => do
    let txouts ← getTransactionOutputs store txin.prevoutHash
    Outcome.unwrap txouts[txin.prevoutIndex.toNat]?) txins

def Gains (pair : AddressTransaction × AnalyzedTx) : Bool :=
  decide (0 < pair.1.value) && !pair.2.tx.isCoinbase

def Loses (pair : AddressTransaction × AnalyzedTx) : Bool :=
  decide (pair.1.value < 0) && !pair.2.tx.isCoinbase

section Attribution

variable (codecs : AddressCodecs) (humanAddress : Address)

/-- `other_addresses` sorted and without repetitions. -/
def otherAddresses (txouts : List TxOut) : List Address :=
  sortDedup ((txouts.map fun txout => getHumanAddressFromScript codecs txout.script).filter (· ≠ humanAddress))

/-- The single address is left as it is unless there is exactly one. -/
def AddressTransaction.attribute (addressTx : AddressTransaction) (others : List Address) : AddressTransaction :=
  { addressTx with
    distinctOtherAddresses := others.length
    singleOtherAddress := match others with
      | [other] => some other
      | _ => addressTx.singleOtherAddress }

/-- The last loop, with its two running indexes. -/
def attributeAll (gainTxouts loseTxouts : List (List TxOut)) :
    List (AddressTransaction × AnalyzedTx) → Nat → Nat → Outcome (List AddressTransaction)
  | [], _, _ => .ok []
  | (addressTx, analyzedTx) :: rest, gainTxoutsIndex, loseTxoutsIndex =>
    if 0 < addressTx.value then
      if analyzedTx.tx.isCoinbase then do
        let others ← attributeAll gainTxouts loseTxouts rest gainTxoutsIndex loseTxoutsIndex
        pure ({ addressTx with distinctOtherAddresses := 1, singleOtherAddress := some .coinbase } :: others)
      else do
        let relevantTxouts ← Outcome.unwrap gainTxouts[gainTxoutsIndex]?
        let others ← attributeAll gainTxouts loseTxouts rest (gainTxoutsIndex + 1) loseTxoutsIndex
        pure (addressTx.attribute (otherAddresses codecs humanAddress relevantTxouts) :: others)
    else if addressTx.value < 0 then do
      let txouts ← Outcome.unwrap loseTxouts[loseTxoutsIndex]?
      let others ← attributeAll gainTxouts loseTxouts rest gainTxoutsIndex (loseTxoutsIndex + 1)
      pure (addressTx.attribute (otherAddresses codecs humanAddress txouts) :: others)
    else do
      let others ← attributeAll gainTxouts loseTxouts rest gainTxoutsIndex loseTxoutsIndex
      pure (addressTx :: others)

/-- The transactions as the call leaves them; a failed task makes it an error. -/
def populateOtherAddressFields (stores : Stores) (transactions : List AddressTransaction) :
    Outcome (List AddressTransaction) := do
  let fullTxs ← Outcome.mapM (fun x : AddressTransaction => getAnalyzedTx stores.txs x.transactionHash) transactions
  let pairs := transactions.zip fullTxs
  let gainTxouts ← Outcome.mapM (fun pair : AddressTransaction × AnalyzedTx =>
    spawned (spentOutputs stores.txouts pair.2.tx.txins)) (pairs.filter Gains)
  let loseTxouts ← Outcome.mapM (fun pair : AddressTransaction × AnalyzedTx =>
    getTransactionOutputs stores.txouts pair.2.tx.hash) (pairs.filter Loses)
  attributeAll codecs humanAddress gainTxouts loseTxouts pairs 0 0

/-! What an entry should get. -/

/-- Some output pays an address other than the one that was asked for. -/
def PaysOther (txouts : List TxOut) (address : Address) : Prop :=
  address ≠ humanAddress ∧ ∃ txout ∈ txouts, getHumanAddressFromScript codecs txout.script = address

/-- A counterparty of an entry: of a gain the coinbase, or an address that the outputs pay which
its transaction spends, of a loss one that its own outputs pay. -/
def Counterparty (value : Int64) (coinbase : Bool) (spent own : List TxOut) (address : Address) : Prop :=
  0 < value ∧ (coinbase = true ∧ address = .coinbase ∨ coinbase = false ∧ PaysOther codecs humanAddress spent address) ∨
    value < 0 ∧ PaysOther codecs humanAddress own address

end Attribution

/-- The output that an input spends, as the stores have it. -/
def Stored (stores : Stores) (txin : TxIn) (txout : TxOut) : Prop :=
  ∃ txouts, getTransactionOutputs stores.txouts txin.prevoutHash = .ok txouts ∧ txouts[txin.prevoutIndex.toNat]? = some txout

/-- The stores have the transaction of an entry, and the outputs that are needed of it; no
coinbase loses. -/
structure Finds (stores : Stores) (addressTx : AddressTransaction) (full : AnalyzedTx) (spent own : List TxOut) : Prop where
  tx : getAnalyzedTx stores.txs addressTx.transactionHash = .ok full
  spent : 0 < addressTx.value → full.tx.isCoinbase = false → List.Forall₂ (Stored stores) full.tx.txins spent
  own : addressTx.value < 0 → getTransactionOutputs stores.txouts addressTx.transactionHash = .ok own
  coinbase : addressTx.value < 0 → full.tx.isCoinbase = false

/-- The number of the distinct counterparties, and the only one if there is one. -/
structure Attributed (addressTx answer : AddressTransaction) (others : Finset Address) : Prop where
  rest : answer = { addressTx with
    distinctOtherAddresses := answer.distinctOtherAddresses, singleOtherAddress := answer.singleOtherAddress }
  distinct : addressTx.value ≠ 0 → answer.distinctOtherAddresses = others.card
  single : addressTx.value ≠ 0 → ∀ address, answer.singleOtherAddress = some address ↔ others = {address}
  untouched : addressTx.value = 0 → answer = addressTx

/-- The entry gets what the outputs of its own transaction give. -/
def Answers (codecs : AddressCodecs) (humanAddress : Address) (stores : Stores) (pair : AddressTransaction × AnalyzedTx)
    (answer : AddressTransaction) : Prop :=
  ∃ spent own others, Finds stores pair.1 pair.2 spent own ∧
    (∀ address, address ∈ others ↔
      Counterparty codecs humanAddress pair.1.value pair.2.tx.isCoinbase spent own address) ∧
    Attributed pair.1 answer others

variable {codecs : AddressCodecs} {humanAddress : Address} {stores : Stores} {addressTx : AddressTransaction}
  {full : AnalyzedTx} {txouts spent own : List TxOut}
  {gainTxouts loseTxouts : List (List TxOut)} {pairs : List (AddressTransaction × AnalyzedTx)}

theorem deserializeWithoutTxouts_hash {buffer : Bytes} {hash : Hash} {tx : Tx} {consumed : Nat}
    (read : deserializeWithoutTxouts buffer hash = .ok (tx, consumed)) : tx.hash = hash := by
  obtain ⟨version, _, read⟩ := Outcome.bind_eq_ok.mp read
  obtain ⟨marker, _, read⟩ := Outcome.bind_eq_ok.mp read
  obtain ⟨rest, _, read⟩ := Outcome.bind_eq_ok.mp read
  obtain ⟨⟨txins, offsetDelta⟩, _, read⟩ := Outcome.bind_eq_ok.mp read
  obtain ⟨offset, _, read⟩ := Outcome.bind_eq_ok.mp read
  obtain ⟨_, _, read⟩ := Outcome.bind_eq_ok.mp read
  obtain ⟨⟨witnesses, offset⟩, _, read⟩ := Outcome.bind_eq_ok.mp read
  obtain ⟨locktime, _, read⟩ := Outcome.bind_eq_ok.mp read
  obtain ⟨consumed, _, read⟩ := Outcome.bind_eq_ok.mp read
  cases read
  rfl

theorem expect_eq_ok {α : Type} {result : Outcome α} {a : α} (returned : expect result = .ok a) : result = .ok a := by
  cases result with
  | ok b => exact returned
  | err => cases returned
  | fault => cases returned

theorem spawned_eq_ok {α : Type} {result : Outcome α} {a : α} (returned : spawned result = .ok a) : result = .ok a := by
  cases result with
  | ok b => exact returned
  | err => cases returned
  | fault => cases returned

/-- The transaction that is read has the hash that was asked for. -/
theorem getAnalyzedTx_hash {store : Hash → Option Bytes} {hash : Hash} (found : getAnalyzedTx store hash = .ok full) :
    full.tx.hash = hash := by
  unfold getAnalyzedTx at found
  split at found
  · cases found
  · split at found
    · cases found
    · have read := spawned_eq_ok found
      obtain ⟨fee, _, read⟩ := Outcome.bind_eq_ok.mp read
      obtain ⟨txoutsSum, _, read⟩ := Outcome.bind_eq_ok.mp read
      obtain ⟨sizeWus, _, read⟩ := Outcome.bind_eq_ok.mp read
      obtain ⟨sigops, _, read⟩ := Outcome.bind_eq_ok.mp read
      obtain ⟨blockHash, _, read⟩ := Outcome.bind_eq_ok.mp read
      obtain ⟨rest, _, read⟩ := Outcome.bind_eq_ok.mp read
      obtain ⟨⟨tx, consumed⟩, atTx, read⟩ := Outcome.bind_eq_ok.mp read
      obtain ⟨offset, _, read⟩ := Outcome.bind_eq_ok.mp read
      obtain ⟨rest, _, read⟩ := Outcome.bind_eq_ok.mp read
      obtain ⟨⟨txinValues, _⟩, _, read⟩ := Outcome.bind_eq_ok.mp read
      cases read
      exact deserializeWithoutTxouts_hash (expect_eq_ok atTx)

theorem attribute_attributed (fresh : addressTx.singleOtherAddress = none) (moves : addressTx.value ≠ 0)
    {others : List Address} : Attributed addressTx (addressTx.attribute (sortDedup others)) others.toFinset where
  rest := rfl
  distinct := fun _ => length_sortDedup others
  single := by
    intro _ address
    rw [← sortDedup_eq_singleton]
    unfold AddressTransaction.attribute
    dsimp only
    split
    · next other alone =>
      rw [alone]
      constructor
      · intro same
        rw [Option.some.inj same]
      · intro same
        rw [List.singleton_inj.mp same]
    · next several =>
      rw [fresh]
      exact ⟨nofun, fun alone => (several address alone).elim⟩
  untouched := fun still => (moves still).elim

theorem coinbase_attributed (moves : addressTx.value ≠ 0) : Attributed addressTx
    { addressTx with distinctOtherAddresses := 1, singleOtherAddress := some .coinbase } {.coinbase} where
  rest := rfl
  distinct := fun _ => rfl
  single := fun _ address => by rw [Finset.singleton_inj, Option.some.injEq]
  untouched := fun still => (moves still).elim

theorem mem_others {address : Address} : address ∈ ((txouts.map fun txout =>
    getHumanAddressFromScript codecs txout.script).filter (· ≠ humanAddress)).toFinset ↔
      PaysOther codecs humanAddress txouts address := by
  rw [List.mem_toFinset, List.mem_filter, List.mem_map, decide_eq_true_eq, and_comm]
  rfl

theorem ne_zero_of_pos {value : Int64} (positive : 0 < value) : value ≠ 0 := by
  rintro rfl
  exact absurd positive (by decide)

theorem ne_zero_of_neg {value : Int64} (negative : value < 0) : value ≠ 0 := by
  rintro rfl
  exact absurd negative (by decide)

theorem not_pos_of_neg {value : Int64} (negative : value < 0) : ¬0 < value :=
  fun positive => Int64.lt_irrefl (Int64.lt_trans positive negative)

theorem eq_zero_of_not {value : Int64} (positive : ¬0 < value) (negative : ¬value < 0) : value = 0 :=
  Int64.le_antisymm (Int64.not_lt.mp positive) (Int64.not_lt.mp negative)

theorem getElem?_of_drop {α : Type} {xs rest : List α} {x : α} {i : Nat} (suffix : xs.drop i = x :: rest) :
    xs[i]? = some x ∧ xs.drop (i + 1) = rest := by
  constructor
  · have head := congrArg (·[0]?) suffix
    simpa only [List.getElem?_drop, Nat.add_zero, List.getElem?_cons_zero] using head
  · rw [← List.drop_drop, suffix]
    rfl

/-! What the four branches of the last loop put into an entry. -/

theorem answers_coinbase (finds : Finds stores addressTx full spent own) (positive : 0 < addressTx.value)
    (coinbase : full.tx.isCoinbase = true) : Answers codecs humanAddress stores (addressTx, full)
      { addressTx with distinctOtherAddresses := 1, singleOtherAddress := some .coinbase } := by
  refine ⟨spent, own, {.coinbase}, finds, fun address => ?_, coinbase_attributed (ne_zero_of_pos positive)⟩
  have notLost : ¬addressTx.value < 0 := fun negative => not_pos_of_neg negative positive
  simp [Counterparty, positive, notLost, coinbase]

theorem answers_gain (finds : Finds stores addressTx full spent own) (fresh : addressTx.singleOtherAddress = none)
    (positive : 0 < addressTx.value) (ordinary : full.tx.isCoinbase = false)
    (spends : List.Forall₂ (Stored stores) full.tx.txins txouts) : Answers codecs humanAddress stores (addressTx, full)
      (addressTx.attribute (otherAddresses codecs humanAddress txouts)) := by
  refine ⟨txouts, own, _, { finds with spent := fun _ _ => spends }, fun address => mem_others.trans ?_,
    attribute_attributed fresh (ne_zero_of_pos positive)⟩
  have notLost : ¬addressTx.value < 0 := fun negative => not_pos_of_neg negative positive
  simp [Counterparty, positive, notLost, ordinary]

theorem answers_loss (finds : Finds stores addressTx full spent own) (fresh : addressTx.singleOtherAddress = none)
    (negative : addressTx.value < 0)
    (pays : getTransactionOutputs stores.txouts addressTx.transactionHash = .ok txouts) :
    Answers codecs humanAddress stores (addressTx, full)
      (addressTx.attribute (otherAddresses codecs humanAddress txouts)) := by
  refine ⟨spent, txouts, _, { finds with own := fun _ => pays }, fun address => mem_others.trans ?_,
    attribute_attributed fresh (ne_zero_of_neg negative)⟩
  simp [Counterparty, negative, not_pos_of_neg negative]

theorem answers_still (finds : Finds stores addressTx full spent own) (still : addressTx.value = 0) :
    Answers codecs humanAddress stores (addressTx, full) addressTx := by
  refine ⟨spent, own, ∅, finds, fun address => ?_, rfl, fun moves => (moves still).elim,
    fun moves => (moves still).elim, fun _ => rfl⟩
  simp [Counterparty, still]

/-- The next of the outputs that are left belongs to the next entry that needs some. -/
theorem forall₂_cons_drop {α β : Type} {R : α → β → Prop} {x : α} {xs : List α} {ys : List β} {i : Nat}
    (all : List.Forall₂ R (x :: xs) (ys.drop i)) : ∃ y, ys[i]? = some y ∧ R x y ∧ List.Forall₂ R xs (ys.drop (i + 1)) := by
  cases suffix : ys.drop i with
  | nil =>
    rw [suffix] at all
    cases all
  | cons y more =>
    rw [suffix] at all
    obtain ⟨first, rest⟩ := List.forall₂_cons.mp all
    obtain ⟨atIndex, next⟩ := getElem?_of_drop suffix
    exact ⟨y, atIndex, first, next ▸ rest⟩

/-- The last loop: what is left of the two lists of outputs belongs to the gains and to the
losses that are left. -/
theorem attributeAll_ok {gainTxoutsIndex loseTxoutsIndex : Nat}
    (known : ∀ pair ∈ pairs, pair.1.singleOtherAddress = none ∧ ∃ spent own, Finds stores pair.1 pair.2 spent own)
    (gains : List.Forall₂ (fun (pair : AddressTransaction × AnalyzedTx) => List.Forall₂ (Stored stores) pair.2.tx.txins)
      (pairs.filter Gains) (gainTxouts.drop gainTxoutsIndex))
    (losses : List.Forall₂ (fun (pair : AddressTransaction × AnalyzedTx) txouts =>
      getTransactionOutputs stores.txouts pair.2.tx.hash = .ok txouts) (pairs.filter Loses) (loseTxouts.drop loseTxoutsIndex)) :
    ∃ answers, attributeAll codecs humanAddress gainTxouts loseTxouts pairs gainTxoutsIndex loseTxoutsIndex = .ok answers ∧
      List.Forall₂ (Answers codecs humanAddress stores) pairs answers := by
  induction pairs generalizing gainTxoutsIndex loseTxoutsIndex with
  | nil => exact ⟨[], rfl, .nil⟩
  | cons pair rest ih =>
    obtain ⟨addressTx, full⟩ := pair
    obtain ⟨fresh, spent, own, finds⟩ := known _ List.mem_cons_self
    have later := fun pair member => known pair (List.mem_cons_of_mem _ member)
    rw [attributeAll]
    by_cases positive : 0 < addressTx.value
    · have lost : ¬Loses (addressTx, full) = true := by
        rw [Loses, decide_eq_false fun negative => not_pos_of_neg negative positive]
        exact Bool.false_ne_true
      rw [List.filter_cons_of_neg lost] at losses
      rw [if_pos positive]
      cases coinbase : full.tx.isCoinbase with
      | true =>
        have gained : ¬Gains (addressTx, full) = true := by
          rw [Gains, coinbase, Bool.not_true, Bool.and_false]
          exact Bool.false_ne_true
        rw [List.filter_cons_of_neg gained] at gains
        obtain ⟨answers, answered, right⟩ := ih later gains losses
        rw [if_pos rfl, answered]
        exact ⟨_, rfl, .cons (answers_coinbase finds positive coinbase) right⟩
      | false =>
        have gained : Gains (addressTx, full) = true := by
          rw [Gains, decide_eq_true positive, coinbase]
          rfl
        rw [List.filter_cons_of_pos gained] at gains
        obtain ⟨txouts, atIndex, spends, gains⟩ := forall₂_cons_drop gains
        obtain ⟨answers, answered, right⟩ := ih later gains losses
        rw [if_neg Bool.false_ne_true, atIndex, Outcome.unwrap_some, Outcome.ok_bind, answered]
        exact ⟨_, rfl, .cons (answers_gain finds fresh positive coinbase spends) right⟩
    · have gained : ¬Gains (addressTx, full) = true := by
        rw [Gains, decide_eq_false positive]
        exact Bool.false_ne_true
      rw [List.filter_cons_of_neg gained] at gains
      rw [if_neg positive]
      by_cases negative : addressTx.value < 0
      · have lost : Loses (addressTx, full) = true := by
          rw [Loses, decide_eq_true negative, finds.coinbase negative]
          rfl
        rw [List.filter_cons_of_pos lost] at losses
        obtain ⟨txouts, atIndex, pays, losses⟩ := forall₂_cons_drop losses
        obtain ⟨answers, answered, right⟩ := ih later gains losses
        rw [getAnalyzedTx_hash finds.tx] at pays
        rw [if_pos negative, atIndex, Outcome.unwrap_some, Outcome.ok_bind, answered]
        exact ⟨_, rfl, .cons (answers_loss finds fresh negative pays) right⟩
      · have lost : ¬Loses (addressTx, full) = true := by
          rw [Loses, decide_eq_false negative]
          exact Bool.false_ne_true
        rw [List.filter_cons_of_neg lost] at losses
        obtain ⟨answers, answered, right⟩ := ih later gains losses
        rw [if_neg negative, answered]
        exact ⟨_, rfl, .cons (answers_still finds (eq_zero_of_not positive negative)) right⟩

/-- The tasks of the gains return the outputs that their transactions spend. -/
theorem spentOutputs_ok {txins : List TxIn} (spends : List.Forall₂ (Stored stores) txins spent) :
    spentOutputs stores.txouts txins = .ok spent := by
  induction spends with
  | nil => rfl
  | cons first _ ih =>
    obtain ⟨txouts, returned, inRange⟩ := first
    rw [spentOutputs] at ih ⊢
    rw [Outcome.mapM, returned, Outcome.ok_bind, inRange, Outcome.unwrap_some, Outcome.ok_bind, ih]
    rfl

/-- What the callers hand over names no other address yet. -/
theorem filterAndPopulateAddressTxs_fresh {c : Chain} {entries : List AddressEntry} {kept : List AddressTransaction}
    (made : filterAndPopulateAddressTxs c entries = .ok kept) : ∀ addressTx ∈ kept, addressTx.singleOtherAddress = none := by
  intro addressTx member
  rw [filterAndPopulateAddressTxs] at made
  split at made
  · cases made
    cases member
  · obtain ⟨item, _, made⟩ := Outcome.mem_of_flatMapM made member
    obtain ⟨single, made, inSingle⟩ := made
    obtain ⟨block, _, made⟩ := Outcome.bind_eq_ok.mp made
    cases made
    rw [List.mem_singleton.mp inSingle]

/-- No index is out of range, and each transaction gets its own counterparties. -/
theorem populateOtherAddressFields_ok {transactions : List AddressTransaction}
    (fresh : ∀ addressTx ∈ transactions, addressTx.singleOtherAddress = none)
    (found : ∀ addressTx ∈ transactions, ∃ full spent own, Finds stores addressTx full spent own) :
    ∃ answers, populateOtherAddressFields codecs humanAddress stores transactions = .ok answers ∧
      List.Forall₂ (fun addressTx answer => ∃ full, Answers codecs humanAddress stores (addressTx, full) answer)
        transactions answers := by
  obtain ⟨fullTxs, fetched, full⟩ := @Outcome.mapM_forall₂ _ _
    (fun addressTx full => ∃ spent own, Finds stores addressTx full spent own)
    (fun x : AddressTransaction => getAnalyzedTx stores.txs x.transactionHash) transactions fun addressTx member => by
      obtain ⟨full, spent, own, finds⟩ := found addressTx member
      exact ⟨full, finds.tx, spent, own, finds⟩
  have known : ∀ pair ∈ transactions.zip fullTxs,
      pair.1.singleOtherAddress = none ∧ ∃ spent own, Finds stores pair.1 pair.2 spent own := by
    intro pair member
    exact ⟨fresh _ (List.of_mem_zip member).1, (List.forall₂_iff_zip.mp full).2 member⟩
  obtain ⟨gainTxouts, gainTasks, gains⟩ := @Outcome.mapM_forall₂ _ _
    (fun pair => List.Forall₂ (Stored stores) pair.2.tx.txins)
    (fun pair : AddressTransaction × AnalyzedTx => spawned (spentOutputs stores.txouts pair.2.tx.txins))
    ((transactions.zip fullTxs).filter Gains) fun pair member => by
      obtain ⟨member, gained⟩ := List.mem_filter.mp member
      obtain ⟨_, spent, own, finds⟩ := known pair member
      rw [Gains, Bool.and_eq_true, decide_eq_true_eq, Bool.not_eq_true'] at gained
      have spends := finds.spent gained.1 gained.2
      exact ⟨spent, by rw [spentOutputs_ok spends, spawned], spends⟩
  obtain ⟨loseTxouts, loseTasks, losses⟩ := @Outcome.mapM_forall₂ _ _ (fun pair txouts =>
      getTransactionOutputs stores.txouts pair.2.tx.hash = .ok txouts)
    (fun pair : AddressTransaction × AnalyzedTx => getTransactionOutputs stores.txouts pair.2.tx.hash)
    ((transactions.zip fullTxs).filter Loses) fun pair member => by
      obtain ⟨member, lost⟩ := List.mem_filter.mp member
      obtain ⟨_, spent, own, finds⟩ := known pair member
      rw [Loses, Bool.and_eq_true, decide_eq_true_eq] at lost
      have returned := finds.own lost.1
      rw [← getAnalyzedTx_hash finds.tx] at returned
      exact ⟨own, returned, returned⟩
  obtain ⟨answers, answered, right⟩ := @attributeAll_ok codecs humanAddress stores gainTxouts loseTxouts _ 0 0 known gains losses
  refine ⟨answers, ?_, ?_⟩
  · rw [populateOtherAddressFields, fetched, Outcome.ok_bind]
    dsimp only
    rw [gainTasks, Outcome.ok_bind, loseTasks, Outcome.ok_bind]
    exact answered
  · have fst := List.map_fst_zip full.length_eq.le
    rw [← fst, List.forall₂_map_left_iff]
    exact right.imp fun pair answer answered => ⟨pair.2, answered⟩

def oneHash : Hash := hashOf 1

/-- A transaction with one input, stored with its output and the one that it spends. -/
def pairTx : Tx :=
  ⟨1, 0, [⟨emptyHash, 0, 0, []⟩], [], none, oneHash, emptyHash⟩

def pairStores : Stores where
  txs _ := some (serializeAnalyzedTx 0 0 0 0 emptyHash pairTx [])
  txouts _ := some (serializeArray serializeTxOut [⟨4, []⟩])
  blockTxs _ := none
  spends _ := none
  amends _ := none

/-- A gain and a loss in one transaction. -/
def pairEntries : List AddressTransaction :=
  [⟨oneHash, emptyHash, 1, 0, 4, none, 0⟩, ⟨oneHash, emptyHash, 1, 0, -3, none, 0⟩]

theorem populateOtherAddressFields_ok_pair :
    ∃ answers, populateOtherAddressFields markedCodecs .opReturn pairStores pairEntries = .ok answers ∧
      List.Forall₂ (fun addressTx answer => ∃ full, Answers markedCodecs .opReturn pairStores (addressTx, full) answer)
        pairEntries answers := by
  have txouts : ∀ hash, getTransactionOutputs pairStores.txouts hash = .ok [⟨4, []⟩] := fun _ => rfl
  have found : getAnalyzedTx pairStores.txs oneHash = .ok ⟨0, 0, 0, 0, emptyHash, pairTx.withoutTxouts, []⟩ := by
    have read := @deserializeAnalyzedTx_ok pairTx ⟨rfl, nofun, by decide⟩ (by decide) [] (by decide) 0 0 0 0 emptyHash
    rw [getAnalyzedTx, show pairStores.txs oneHash = some (serializeAnalyzedTx 0 0 0 0 emptyHash pairTx []) from rfl]
    dsimp only
    rw [if_neg (by decide), show deserializeAnalyzedTx _ oneHash = _ from read]
    rfl
  refine populateOtherAddressFields_ok (by decide) fun addressTx member => ?_
  have hash : addressTx.transactionHash = oneHash := by
    revert addressTx
    decide
  refine ⟨_, [⟨4, []⟩], [⟨4, []⟩], hash ▸ found, ?_, fun _ => txouts _, fun _ => rfl⟩
  exact fun _ _ => .cons ⟨_, txouts _, rfl⟩ .nil

end Bitlens

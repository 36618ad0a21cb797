import Bitlens.AmendArrays

namespace Bitlens
open Lib

/-! Sums over the pairs with one key. -/

/-- What the changes of a key add up to, each changed by a function first. -/
def sumOf (f : Int → Int) (key : Bytes) (amends : List (Bytes × Int64)) : Int :=
  ((amends.filter fun amend => amend.1 = key).map fun amend => f amend.2.toInt).sum

def total : Bytes → List (Bytes × Int64) → Int := sumOf id
def gains : Bytes → List (Bytes × Int64) → Int := sumOf (max 0)
def losses : Bytes → List (Bytes × Int64) → Int := sumOf (min 0)

/-- The changes that are still to come cannot leave the range, in whatever order. -/
def Room (merged amends : List (Bytes × Int64)) : Prop :=
  ∀ key, total key merged + gains key amends < 2 ^ 63 ∧ -2 ^ 63 ≤ total key merged + losses key amends

variable {p : Profile} {f : Int → Int} {key : Bytes} {amend pair : Bytes × Int64} {merged amends other : List (Bytes × Int64)}

theorem sumOf_cons : sumOf f key (amend :: amends) = (if amend.1 = key then f amend.2.toInt else 0) + sumOf f key amends := by
  rw [sumOf, List.filter_cons]
  by_cases same : amend.1 = key
  · rw [if_pos (decide_eq_true same), if_pos same, List.map_cons, List.sum_cons, sumOf]
  · rw [if_neg (by rw [decide_eq_true_eq]; exact same), if_neg same, zero_add, sumOf]

theorem sumOf_append : sumOf f key (amends ++ other) = sumOf f key amends + sumOf f key other := by
  rw [sumOf, List.filter_append, List.map_append, List.sum_append, sumOf, sumOf]

theorem sumOf_perm (perm : amends.Perm other) : sumOf f key amends = sumOf f key other :=
  ((perm.filter _).map _).sum_eq

theorem sumOf_of_not_mem (absent : key ∉ amends.map Prod.fst) : sumOf f key amends = 0 := by
  have none : (amends.filter fun amend => decide (amend.1 = key)) = [] := by
    refine List.filter_eq_nil_iff.mpr fun amend member same => ?_
    exact absent (List.mem_map.mpr ⟨amend, member, of_decide_eq_true same⟩)
  rw [sumOf, none]
  rfl

/-- Of distinct keys each has one change. -/
theorem total_of_mem (nodup : (amends.map Prod.fst).Nodup) (member : pair ∈ amends) : total pair.1 amends = pair.2.toInt := by
  induction amends with
  | nil => cases member
  | cons amend amends ih =>
    obtain ⟨fresh, nodup⟩ := List.nodup_cons.mp nodup
    rw [total, sumOf_cons]
    rcases List.mem_cons.mp member with rfl | later
    · rw [if_pos rfl, sumOf_of_not_mem fresh, add_zero]
      rfl
    · have different : amend.1 ≠ pair.1 := fun same => fresh (List.mem_map.mpr ⟨pair, later, same.symm⟩)
      rw [if_neg different, zero_add]
      exact ih nodup later

theorem gains_nonneg (amends : List (Bytes × Int64)) : 0 ≤ gains key amends := by
  refine List.sum_nonneg fun x member => ?_
  obtain ⟨amend, _, rfl⟩ := List.mem_map.mp member
  exact le_max_left 0 _

theorem losses_nonpos (amends : List (Bytes × Int64)) : losses key amends ≤ 0 := by
  induction amends with
  | nil => exact le_rfl
  | cons amend amends ih =>
    rw [losses, sumOf_cons]
    rw [losses] at ih
    split <;> omega

/-! Merging adds up exactly. -/

theorem addI64_ok {a b : Int64} (low : -2 ^ 63 ≤ a.toInt + b.toInt) (high : a.toInt + b.toInt < 2 ^ 63) :
    addI64 p a b = .ok (a + b) ∧ (a + b).toInt = a.toInt + b.toInt := by
  have exact_ : (a + b).toInt = a.toInt + b.toInt := by
    rw [Int64.toInt_add]
    exact Int.bmod_eq_of_le (by omega) (by omega)
  exact ⟨if_pos (.inl exact_), exact_⟩

/-- One round of the merging: the change is added to what its key has. -/
theorem mergeAmends_step (merging : Merging merged (amend :: amends)) (room : Room merged (amend :: amends)) :
    ∃ next, (mergeAmends p merged (amend :: amends) = mergeAmends p next amends) ∧ Merging next amends ∧
      ∀ key, total key next = total key merged + total key [amend] := by
  have single : ∀ key, total key [amend] = if amend.1 = key then amend.2.toInt else 0 := by
    intro key
    rw [total, sumOf_cons]
    exact add_zero _
  cases merged with
  | nil =>
    refine ⟨[amend], by rw [mergeAmends], merging.push rfl fun a member => (List.not_mem_nil member).elim, fun key => ?_⟩
    exact (zero_add _).symm
  | cons last merged =>
    have fall := (List.pairwise_cons.mp merging.falling).1
    rw [mergeAmends]
    by_cases same : last.1 = amend.1
    · obtain ⟨high, low⟩ := room amend.1
      have absent : amend.1 ∉ merged.map Prod.fst := by
        intro member
        obtain ⟨a, inMerged, equal⟩ := List.mem_map.mp member
        exact absurd (fall a inMerged) (by rw [equal, same]; exact lt_irrefl _)
      have before : total amend.1 (last :: merged) = last.2.toInt := by
        rw [total, sumOf_cons, if_pos same, sumOf_of_not_mem absent, add_zero]
        rfl
      have further := @gains_nonneg amend.1 amends
      have less := @losses_nonpos amend.1 amends
      rw [before, gains, sumOf_cons, if_pos rfl, ← gains] at high
      rw [before, losses, sumOf_cons, if_pos rfl, ← losses] at low
      obtain ⟨sum, value⟩ := @addI64_ok p last.2 amend.2 (by omega) (by omega)
      refine ⟨(amend.1, last.2 + amend.2) :: merged, ?_,
        merging.tail.push rfl fun a member => by rw [← same]; exact fall a member, fun key => ?_⟩
      · rw [if_pos same, sum, Outcome.ok_bind]
      · rw [single, total, sumOf_cons, sumOf_cons, same, value]
        split
        · simp only [id]
          omega
        · rw [add_zero]
    · have first : last.1 < amend.1 :=
        lt_of_le_of_ne (merging.below last List.mem_cons_self amend List.mem_cons_self) same
      refine ⟨amend :: last :: merged, by rw [if_neg same], merging.push rfl fun a member => ?_, fun key => ?_⟩
      · rcases List.mem_cons.mp member with rfl | older
        · exact first
        · exact (fall a older).trans first
      · rw [single, total, sumOf_cons, add_comm]
        rfl

theorem mergeAmends_ok (merging : Merging merged amends) (room : Room merged amends) :
    ∃ pairs, mergeAmends p merged amends = .ok pairs ∧ ∀ key, total key pairs = total key merged + total key amends := by
  induction amends generalizing merged with
  | nil =>
    refine ⟨merged.reverse, by rw [mergeAmends], fun key => ?_⟩
    exact (sumOf_perm merged.reverse_perm).trans (add_zero _).symm
  | cons amend amends ih =>
    obtain ⟨next, step, nextMerging, sums⟩ := @mergeAmends_step p amend merged amends merging room
    have nextRoom : Room next amends := by
      intro key
      obtain ⟨high, low⟩ := room key
      have here := sums key
      rw [total, sumOf_cons, show sumOf id key [] = 0 from rfl, add_zero, ← total] at here
      rw [gains, sumOf_cons, ← gains] at high
      rw [losses, sumOf_cons, ← losses] at low
      simp only [id] at here
      constructor
      · split at here <;> split at high <;> omega
      · split at here <;> split at low <;> omega
    obtain ⟨pairs, rest, values⟩ := ih nextMerging nextRoom
    refine ⟨pairs, step.trans rest, fun key => ?_⟩
    have whole : total key (amend :: amends) = total key [amend] + total key amends := @sumOf_append id key [amend] amends
    rw [values, sums, whole, add_assoc]

/-! The amends of a transaction. -/

/-- A transaction with the outputs that it spends; a coinbase transaction spends none. -/
structure SpentTx where
  tx : Tx
  dependencies : List TxOut
  coinbase : tx.isCoinbase = true → dependencies = []

/-- A block with its hash, its timestamp and the outputs that its transactions spend. -/
structure SpentBlock where
  hash : Hash
  timestamp : UInt64
  txs : List SpentTx

section Amounts

variable (timestamp : UInt64) (txhash : Hash) (key : Bytes)

/-- The outputs that have this key. -/
def withKey (txouts : List TxOut) : List TxOut :=
  txouts.filter fun txout => getAddressFromScriptCopyIntoArenaWithTxhash txout.script txhash timestamp = some key

def amountOf (txouts : List TxOut) : Nat :=
  ((withKey timestamp txhash key txouts).map fun txout => txout.value.toNat).sum

end Amounts

/-- The keys among the spent and the created outputs. -/
def SpentTx.keys (timestamp : UInt64) (known : SpentTx) : List Bytes :=
  (known.dependencies ++ known.tx.txouts).filterMap fun txout =>
    getAddressFromScriptCopyIntoArenaWithTxhash txout.script known.tx.hash timestamp

/-- What the transaction pays to the key, less what it spends. -/
def SpentTx.net (timestamp : UInt64) (known : SpentTx) (key : Bytes) : Int :=
  amountOf timestamp known.tx.hash key known.tx.txouts - amountOf timestamp known.tx.hash key known.dependencies

/-- All values are below `2 ^ 63`, and so are the two sums of each key. -/
structure SpentTx.Fits (timestamp : UInt64) (known : SpentTx) : Prop where
  values : ∀ txout ∈ known.dependencies ++ known.tx.txouts, txout.value.toNat < 2 ^ 63
  spent : ∀ key, amountOf timestamp known.tx.hash key known.dependencies < 2 ^ 63
  created : ∀ key, amountOf timestamp known.tx.hash key known.tx.txouts < 2 ^ 63

/-- One pair for each key: the hash of the block and the net amount. -/
def SpentTx.deltas (block : SpentBlock) (known : SpentTx) : List (Bytes × Bytes) :=
  (known.keys block.timestamp).dedup.map fun key =>
    (key, amendValue block.hash (Int64.ofInt (known.net block.timestamp key)))

def SpentBlock.deltas (block : SpentBlock) : List (Bytes × Bytes) :=
  block.txs.flatMap (SpentTx.deltas block)

/-- The records of an analysed block hold what `serialize_address_amends` made. -/
def SpentBlock.Analyzed (p : Profile) (block : SpentBlock) (analyzed : AnalyzedBlock) : Prop :=
  analyzed.hash = block.hash ∧ List.Forall₂ (fun known record => ∃ array sorted,
    serializeAddressAmends p known.tx known.dependencies block.timestamp = .ok array ∧
      SortsBy Prod.fst (itemsOf array) sorted ∧ record.addressAmends = array.map fun _ => sorted) block.txs analyzed.txs

variable {timestamp : UInt64} {txhash : Hash} {txouts deps : List TxOut} {known : SpentTx} {block : SpentBlock}
  {batch : List SpentBlock}

/-- The pairs that are pushed for outputs, with a change for each value. -/
def pairsOf (timestamp : UInt64) (txhash : Hash) (change : TxOut → Int64) (txouts : List TxOut) : List (Bytes × Int64) :=
  txouts.filterMap fun txout =>
    (getAddressFromScriptCopyIntoArenaWithTxhash txout.script txhash timestamp).map (·, change txout)

theorem toInt_of_small {value : UInt64} (small : value.toNat < 2 ^ 63) : value.toInt64.toInt = value.toNat := by
  have cases : value.toInt64.toInt = _ := BitVec.toInt_eq_toNat_cond value.toInt64.toBitVec
  have same : value.toInt64.toBitVec.toNat = value.toNat := rfl
  rw [cases, same, if_pos (by omega)]

theorem toInt_neg_of_small {value : UInt64} (small : value.toNat < 2 ^ 63) : (-value.toInt64).toInt = -value.toNat := by
  rw [Int64.toInt_neg, toInt_of_small small]
  exact Int.bmod_eq_of_le (by omega) (by omega)

/-- A function that is linear on the changes is linear on their sum. -/
theorem sumOf_pairsOf {change : TxOut → Int64} {factor : Int} (key : Bytes)
    (linear : ∀ txout ∈ txouts, f (change txout).toInt = factor * txout.value.toNat) :
    sumOf f key (pairsOf timestamp txhash change txouts) = factor * amountOf timestamp txhash key txouts := by
  induction txouts with
  | nil => exact (mul_zero factor).symm
  | cons txout txouts ih =>
    have rest := ih fun other member => linear other (List.mem_cons_of_mem _ member)
    have first := linear txout List.mem_cons_self
    rw [pairsOf] at rest ⊢
    rw [amountOf, withKey] at rest ⊢
    cases address : getAddressFromScriptCopyIntoArenaWithTxhash txout.script txhash timestamp with
    | none =>
      rw [List.filterMap_cons_none (by rw [address]; rfl), List.filter_cons_of_neg (by rw [address]; simp), rest]
    | some addressBytes =>
      rw [List.filterMap_cons_some (by rw [address]; rfl), sumOf_cons, rest]
      by_cases same : addressBytes = key
      · rw [if_pos same, List.filter_cons_of_pos (by rw [address, same]; simp), List.map_cons, List.sum_cons, first,
          Nat.cast_add, mul_add]
      · rw [if_neg same, List.filter_cons_of_neg (by rw [address]; simpa using same), zero_add]

theorem spentAmends_pairs (small : ∀ txout ∈ deps, txout.value.toNat < 2 ^ 63) :
    Outcome.flatMapM (spentAmends p txhash timestamp) deps =
      .ok (pairsOf timestamp txhash (fun txout => -txout.value.toInt64) deps) := by
  induction deps with
  | nil => rfl
  | cons txout deps ih =>
    have first : txout.value.toInt64 ≠ Int64.minValue := by
      intro least
      have value := small txout List.mem_cons_self
      rw [toInt64_eq_minValue.mp least] at value
      exact absurd value (by decide)
    rw [Outcome.flatMapM, ih fun other member => small other (List.mem_cons_of_mem _ member), spentAmends, pairsOf, pairsOf]
    cases address : getAddressFromScriptCopyIntoArenaWithTxhash txout.script txhash timestamp with
    | none =>
      rw [List.filterMap_cons_none (by rw [address]; rfl)]
      rfl
    | some addressBytes =>
      rw [List.filterMap_cons_some (by rw [address]; rfl), negI64_ok fun _ => first]
      rfl

theorem length_pairsOf (change : TxOut → Int64) (txouts : List TxOut) :
    (pairsOf timestamp txhash change txouts).length = txouts.countP fun txout => scriptHasAddress txout.script := by
  rw [pairsOf, List.length_filterMap_eq_countP]
  refine List.countP_congr fun txout _ => ?_
  rw [Option.isSome_map, isSome_address]

theorem map_fst_pairsOf (change : TxOut → Int64) (txouts : List TxOut) :
    (pairsOf timestamp txhash change txouts).map Prod.fst = txouts.filterMap fun txout =>
      getAddressFromScriptCopyIntoArenaWithTxhash txout.script txhash timestamp := by
  rw [pairsOf, List.map_filterMap]
  refine List.filterMap_congr fun txout _ => ?_
  rw [Option.map_map]
  exact Option.map_id'

/-- What the transaction pushes. -/
def SpentTx.pushes (timestamp : UInt64) (known : SpentTx) : List (Bytes × Int64) :=
  pairsOf timestamp known.tx.hash (fun txout => -txout.value.toInt64) known.dependencies ++
    pairsOf timestamp known.tx.hash (fun txout => txout.value.toInt64) known.tx.txouts

/-- The array of a transaction is exactly as long as what is pushed. -/
theorem serializeAddressAmends_ok (fits : known.Fits timestamp) :
    ∃ array, serializeAddressAmends p known.tx known.dependencies timestamp = .ok array ∧
      itemsOf array = known.pushes timestamp := by
  have length : (known.pushes timestamp).length = amendsCount known.tx known.dependencies := by
    rw [SpentTx.pushes, List.length_append, length_pairsOf, length_pairsOf, amendsCount]
    by_cases coinbase : known.tx.isCoinbase = true
    · rw [known.coinbase coinbase, if_pos coinbase, List.countP_nil]
    · rw [if_neg coinbase]
  by_cases nothing : amendsCount known.tx known.dependencies = 0
  · exact ⟨none, if_pos nothing, (List.length_eq_zero_iff.mp (length.trans nothing)).symm⟩
  have whole := length
  rw [SpentTx.pushes, List.length_append] at whole
  obtain ⟨spent, atSpent, first⟩ := @pushSpent_ok p known.tx.hash timestamp known.dependencies _
    (.ofCapacity (amendsCount known.tx known.dependencies))
    (spentAmends_pairs fun txout member => fits.values txout (List.mem_append_left _ member))
    (by rw [← whole]; exact (Nat.zero_add _).trans_le (Nat.le_add_right _ _))
  obtain ⟨all, atCreated, second⟩ := @pushCreated_ok known.tx.hash timestamp known.tx.txouts spent (by
    rw [first.length, first.cap]
    change 0 + _ + _ ≤ amendsCount known.tx known.dependencies
    rw [← whole, Nat.zero_add]
    rfl)
  refine ⟨some all, ?_, (first.trans second).items⟩
  rw [serializeAddressAmends, if_neg nothing, atSpent, Outcome.ok_bind, atCreated]
  rfl

theorem sumOf_pushes {onSpent onCreated : Int} (key : Bytes)
    (spent : ∀ txout ∈ known.dependencies, f (-txout.value.toInt64).toInt = onSpent * txout.value.toNat)
    (created : ∀ txout ∈ known.tx.txouts, f txout.value.toInt64.toInt = onCreated * txout.value.toNat) :
    sumOf f key (known.pushes timestamp) = onSpent * amountOf timestamp known.tx.hash key known.dependencies +
      onCreated * amountOf timestamp known.tx.hash key known.tx.txouts := by
  rw [SpentTx.pushes, sumOf_append, sumOf_pairsOf key spent, sumOf_pairsOf key created]

/-- What is pushed adds up to the net amounts, and no order of it leaves the range. -/
theorem SpentTx.Fits.sums (fits : known.Fits timestamp) (key : Bytes) :
    total key (known.pushes timestamp) = known.net timestamp key ∧
      gains key (known.pushes timestamp) = amountOf timestamp known.tx.hash key known.tx.txouts ∧
        losses key (known.pushes timestamp) = -amountOf timestamp known.tx.hash key known.dependencies := by
  have spent : ∀ txout ∈ known.dependencies, (-txout.value.toInt64).toInt = -txout.value.toNat :=
    fun txout member => toInt_neg_of_small (fits.values txout (List.mem_append_left _ member))
  have created : ∀ txout ∈ known.tx.txouts, txout.value.toInt64.toInt = txout.value.toNat :=
    fun txout member => toInt_of_small (fits.values txout (List.mem_append_right _ member))
  refine ⟨?_, ?_, ?_⟩
  · rw [total, @sumOf_pushes id timestamp known (-1) 1 key
      (fun txout member => by rw [id, spent txout member]; omega)
      (fun txout member => by rw [id, created txout member]; omega), SpentTx.net]
    omega
  · rw [gains, @sumOf_pushes (max 0) timestamp known 0 1 key
      (fun txout member => by rw [spent txout member]; omega)
      (fun txout member => by rw [created txout member]; omega)]
    omega
  · rw [losses, @sumOf_pushes (min 0) timestamp known (-1) 0 key
      (fun txout member => by rw [spent txout member]; omega)
      (fun txout member => by rw [created txout member]; omega)]
    omega

theorem map_fst_pushes (known : SpentTx) (timestamp : UInt64) :
    (known.pushes timestamp).map Prod.fst = known.keys timestamp := by
  rw [SpentTx.pushes, List.map_append, map_fst_pairsOf, map_fst_pairsOf, SpentTx.keys, List.filterMap_append]

/-- The net amount of a key is in the range. -/
theorem SpentTx.Fits.toInt_net (fits : known.Fits timestamp) (key : Bytes) :
    (Int64.ofInt (known.net timestamp key)).toInt = known.net timestamp key := by
  have spent := fits.spent key
  have created := fits.created key
  rw [SpentTx.net]
  exact Int64.toInt_ofInt_of_le (by omega) (by omega)

/-- Merging what was pushed, in any sorted order, gives the net amounts. -/
theorem SpentTx.Fits.merge (fits : known.Fits block.timestamp) {sorted : List (Bytes × Int64)}
    (sorts : SortsBy Prod.fst (known.pushes block.timestamp) sorted) :
    ∃ pairs, mergeAmends p [] sorted = .ok pairs ∧
      (pairs.map (storedAmend block.hash)).Perm (known.deltas block) := by
  have merging : Merging [] sorted := ⟨sorts.2, .nil, fun _ member => (List.not_mem_nil member).elim⟩
  have room : Room [] sorted := by
    intro key
    obtain ⟨-, upper, lower⟩ := fits.sums key
    have spent := fits.spent key
    have created := fits.created key
    rw [gains, sumOf_perm sorts.1, ← gains, upper, losses, sumOf_perm sorts.1, ← losses, lower]
    change 0 + _ < _ ∧ _ ≤ 0 + _
    omega
  obtain ⟨pairs, made, sums⟩ := @mergeAmends_ok p [] sorted merging room
  obtain ⟨nodup, members⟩ := keys_of_mergeAmends made merging
  refine ⟨pairs, made, ?_⟩
  have keys : (pairs.map Prod.fst).Perm (known.keys block.timestamp).dedup := by
    rw [List.perm_ext_iff_of_nodup nodup (List.nodup_dedup _)]
    intro key
    rw [members, List.mem_dedup, ← map_fst_pushes, (sorts.1.map Prod.fst).mem_iff]
    simp only [List.map_nil, List.not_mem_nil, false_or]
  have stored : pairs.map (storedAmend block.hash) = (pairs.map Prod.fst).map fun key =>
      (key, amendValue block.hash (Int64.ofInt (known.net block.timestamp key))) := by
    rw [List.map_map]
    refine List.map_congr_left fun pair member => ?_
    have whole : total pair.1 pairs = total pair.1 [] + total pair.1 sorted := sums pair.1
    rw [total_of_mem nodup member, total, sumOf_perm sorts.1, ← total, (fits.sums pair.1).1] at whole
    have exactly : Int64.ofInt (known.net block.timestamp pair.1) = pair.2 := by
      rw [← Int64.ofInt_toInt pair.2, whole]
      exact congrArg Int64.ofInt (Int.zero_add _).symm
    rw [storedAmend, Function.comp, exactly]
  rw [stored]
  exact keys.map _

/-! The array of a batch. -/

/-- The sorted amends of a transaction merge to its net amounts. -/
theorem SpentTx.Fits.blockAmends_tx (fits : known.Fits block.timestamp) {array : Option (ArenaArray (Bytes × Int64))}
    {sorted : List (Bytes × Int64)} {record : SerializedTx}
    (made : serializeAddressAmends p known.tx known.dependencies block.timestamp = .ok array)
    (sorts : SortsBy Prod.fst (itemsOf array) sorted) (stored : record.addressAmends = array.map fun _ => sorted) :
    ∃ pairs, mergeAmends p [] (record.addressAmends.getD []) = .ok pairs ∧
      (pairs.map (storedAmend block.hash)).Perm (known.deltas block) := by
  obtain ⟨result, returns, items⟩ := @serializeAddressAmends_ok p block.timestamp known fits
  cases made.symm.trans returns
  have given : record.addressAmends.getD [] = sorted := by
    rw [stored]
    cases array with
    | none => exact (List.perm_nil.mp sorts.1).symm
    | some _ => rfl
  rw [items] at sorts
  rw [given]
  exact fits.merge sorts

theorem SpentBlock.Analyzed.blockAmends {analyzed : AnalyzedBlock} (made : block.Analyzed p analyzed)
    (fits : ∀ known ∈ block.txs, known.Fits block.timestamp) :
    ∃ pairs, Bitlens.blockAmends p analyzed = .ok pairs ∧ pairs.Perm block.deltas := by
  obtain ⟨hash, records⟩ := made
  refine Outcome.flatMapM_perm records fun known member record ⟨array, sorted, returns, sorts, stored⟩ => ?_
  obtain ⟨pairs, merges, deltas⟩ := (fits known member).blockAmends_tx returns sorts stored
  refine ⟨pairs.map (storedAmend block.hash), ?_, deltas⟩
  rw [merges, hash]
  rfl

/-- No array overflows, and the batch gets one entry for each transaction and key, with the
hash of the block and the net amount, and nothing else. -/
theorem collectAmends_net (fits : ∀ block ∈ batch, ∀ known ∈ block.txs, known.Fits block.timestamp) :
    (∀ block ∈ batch, ∀ known ∈ block.txs,
      (∃ array, serializeAddressAmends p known.tx known.dependencies block.timestamp = .ok array) ∧
        ∀ key, (Int64.ofInt (known.net block.timestamp key)).toInt = known.net block.timestamp key) ∧
      ∀ analyzed, List.Forall₂ (SpentBlock.Analyzed p) batch analyzed →
        ∃ array, collectAmends p analyzed = .ok array ∧
          ∀ sorted, SortsBy Prod.fst (itemsOf array) sorted → sorted.Perm (batch.flatMap SpentBlock.deltas) := by
  constructor
  · intro block inBatch known inTxs
    obtain ⟨array, returns, _⟩ := @serializeAddressAmends_ok p block.timestamp known (fits block inBatch known inTxs)
    exact ⟨⟨array, returns⟩, (fits block inBatch known inTxs).toInt_net⟩
  · intro analyzed records
    obtain ⟨pairs, made, deltas⟩ := Outcome.flatMapM_perm records fun block member analyzed made =>
      made.blockAmends (fits block member)
    obtain ⟨array, collected, items⟩ := collectAmends_ok made
    exact ⟨array, collected, fun sorted sorts => sorts.1.trans (by rw [items]; exact deltas)⟩

/-- An output to one address. -/
def changeTxout (value : UInt64) : TxOut :=
  ⟨value, [opDup, opHash160, 0x14] ++ List.replicate 20 0 ++ [opEqualverify, opChecksig]⟩

/-- Two outputs of the address are spent, and a part of them is paid back to it. -/
def changeTx : SpentTx where
  tx := ⟨1, 0, [⟨emptyHash, 0, 0, []⟩, ⟨emptyHash, 1, 0, []⟩], [changeTxout 4], none, emptyHash, emptyHash⟩
  dependencies := [changeTxout 7, changeTxout 5]
  coinbase := nofun

def changeKey : Bytes :=
  amendKey (List.replicate 20 0) 0 emptyHash

def changeRecord : SerializedTx :=
  ⟨emptyHash, [], [], none, some [(changeKey, -7), (changeKey, -5), (changeKey, 4)], 0, 0, 0⟩

theorem amountOf_le (timestamp : UInt64) (txhash : Hash) (key : Bytes) (txouts : List TxOut) :
    amountOf timestamp txhash key txouts ≤ (txouts.map fun txout => txout.value.toNat).sum :=
  (List.filter_sublist.map _).sum_le_sum fun _ _ => Nat.zero_le _

theorem collectAmends_net_change : ∃ array, collectAmends .dev [⟨emptyHash, [changeRecord]⟩] = .ok array ∧
    ∀ sorted, SortsBy Prod.fst (itemsOf array) sorted → sorted.Perm [(changeKey, amendValue emptyHash (-8))] := by
  have deltas : [(⟨emptyHash, 0, [changeTx]⟩ : SpentBlock)].flatMap SpentBlock.deltas =
      [(changeKey, amendValue emptyHash (-8))] := by
    decide +kernel
  rw [← deltas]
  refine (@collectAmends_net .dev [⟨emptyHash, 0, [changeTx]⟩] ?_).2 _ (.cons ⟨rfl, .cons ?_ .nil⟩ .nil)
  · intro block inBatch known inTxs
    rw [List.mem_singleton.mp inBatch] at inTxs ⊢
    rw [List.mem_singleton.mp inTxs]
    exact ⟨by decide, fun key => (amountOf_le _ _ _ _).trans_lt (by decide),
      fun key => (amountOf_le _ _ _ _).trans_lt (by decide)⟩
  · exact ⟨some ⟨[(changeKey, -7), (changeKey, -5), (changeKey, 4)], 3, by decide⟩, _, by rfl,
      ⟨.refl _, by decide +kernel⟩, rfl⟩

end Bitlens

import Bitlens.AddressRange
import Bitlens.Lib.ArenaArray

namespace Bitlens
open Lib

/-! The arrays of a transaction. -/

/-- The loop of `serialize_address_amends` over the dependencies. -/
def pushSpent (p : Profile) (txhash : Hash) (timestamp : UInt64) :
    List TxOut → ArenaArray (Bytes × Int64) → Outcome (ArenaArray (Bytes × Int64))
  | [], amends => .ok amends
  | txout :: deps, amends =>
    match getAddressFromScriptCopyIntoArenaWithTxhash txout.script txhash timestamp with
    | some addressBytes => do
      let delta ← negI64 p txout.value.toInt64
      let amends ← amends.push (addressBytes, delta)
      pushSpent p txhash timestamp deps amends
    | none => pushSpent p txhash timestamp deps amends

/-- The loop over the outputs of the transaction. -/
def pushCreated (txhash : Hash) (timestamp : UInt64) :
    List TxOut → ArenaArray (Bytes × Int64) → Outcome (ArenaArray (Bytes × Int64))
  | [], amends => .ok amends
  | txout :: txouts, amends =>
    match getAddressFromScriptCopyIntoArenaWithTxhash txout.script txhash timestamp with
    | some addressBytes => do
      let amends ← amends.push (addressBytes, txout.value.toInt64)
      pushCreated txhash timestamp txouts amends
    | none => pushCreated txhash timestamp txouts amends

/-- `serialize_address_amends` up to its sort. -/
def serializeAddressAmends (p : Profile) (tx : Tx) (deps : List TxOut) (timestamp : UInt64) :
    Outcome (Option (ArenaArray (Bytes × Int64))) :=
  if amendsCount tx deps = 0 then .ok none
  else do
    let amends ← pushSpent p tx.hash timestamp deps (.ofCapacity (amendsCount tx deps))
    let amends ← pushCreated tx.hash timestamp tx.txouts amends
    pure (some amends)

/-! The array of a batch. -/

/-- The loop over the amends of a transaction: a repeated key takes the last pair back. -/
def pushAmends (p : Profile) (blockHash : Hash) :
    List (Bytes × Int64) → Option Bytes → ArenaArray (Bytes × Bytes) → Outcome (ArenaArray (Bytes × Bytes))
  | [], _, result => .ok result
  | txin :: amends, lastKey, result => do
    let (value, result) ← (
      if lastKey = some txin.1 then do
        let (prevKey, result) ← result.pop
        let value ← addI64 p (deltaOf prevKey.2) txin.2
        pure (value, result)
      else .ok (txin.2, result) : Outcome (Int64 × ArenaArray (Bytes × Bytes)))
    let result ← result.push (txin.1, amendValue blockHash value)
    pushAmends p blockHash amends (some txin.1) result

def pushTxs (p : Profile) (blockHash : Hash) :
    List SerializedTx → ArenaArray (Bytes × Bytes) → Outcome (ArenaArray (Bytes × Bytes))
  | [], result => .ok result
  | tx :: txs, result => do
    let result ← pushAmends p blockHash (tx.addressAmends.getD []) none result
    pushTxs p blockHash txs result

def pushBlocks (p : Profile) : List AnalyzedBlock → ArenaArray (Bytes × Bytes) → Outcome (ArenaArray (Bytes × Bytes))
  | [], result => .ok result
  | block :: blocks, result => do
    let result ← pushTxs p block.hash block.txs result
    pushBlocks p blocks result

/-- `address_amends` of `write_analyzed_txs` up to its sort. -/
def collectAmends (p : Profile) (blocks : List AnalyzedBlock) : Outcome (Option (ArenaArray (Bytes × Bytes))) :=
  let amendsCount := (blocks.map AnalyzedBlock.amendsCount).sum
  if amendsCount = 0 then .ok none
  else do
    let result ← pushBlocks p blocks (.ofCapacity amendsCount)
    pure (some result)

/-- The pairs of an array that was only made if there are any. -/
def itemsOf {α : Type} (result : Option (ArenaArray α)) : List α :=
  (result.map (·.items)).getD []

variable {p : Profile} {txhash blockHash : Hash} {timestamp : UInt64} {key : Bytes} {txouts deps : List TxOut}

/-! No push fails. -/

theorem pushSpent_ok {spent : List (Bytes × Int64)} {amends : ArenaArray (Bytes × Int64)}
    (made : Outcome.flatMapM (spentAmends p txhash timestamp) deps = .ok spent)
    (room : amends.items.length + spent.length ≤ amends.cap) :
    ∃ next, pushSpent p txhash timestamp deps amends = .ok next ∧ amends.Extends spent next := by
  induction deps generalizing spent amends with
  | nil =>
    cases made
    exact ⟨amends, rfl, .nil⟩
  | cons txout deps ih =>
    obtain ⟨first, atFirst, made⟩ := Outcome.bind_eq_ok.mp made
    obtain ⟨others, atOthers, made⟩ := Outcome.bind_eq_ok.mp made
    cases made
    rw [List.length_append] at room
    unfold spentAmends at atFirst
    rw [pushSpent]
    cases address : getAddressFromScriptCopyIntoArenaWithTxhash txout.script txhash timestamp with
    | none =>
      rw [address] at atFirst
      cases atFirst
      rw [List.length_nil, Nat.zero_add] at room
      exact ih atOthers room
    | some addressBytes =>
      rw [address] at atFirst
      obtain ⟨delta, negated, shape⟩ := Outcome.bind_eq_ok.mp atFirst
      cases shape
      rw [List.length_singleton] at room
      obtain ⟨pushed, push, extends_⟩ := @ArenaArray.push_ok _ amends (addressBytes, delta) (by omega)
      obtain ⟨next, rest, further⟩ := @ih others pushed atOthers (by rw [extends_.length, extends_.cap]; simp; omega)
      dsimp only
      rw [negated, Outcome.ok_bind, push, Outcome.ok_bind]
      exact ⟨next, rest, extends_.trans further⟩

theorem pushCreated_ok {amends : ArenaArray (Bytes × Int64)} (room : amends.items.length + (txouts.filterMap fun txout =>
      (getAddressFromScriptCopyIntoArenaWithTxhash txout.script txhash timestamp).map (·, txout.value.toInt64)).length ≤
        amends.cap) :
    ∃ next, pushCreated txhash timestamp txouts amends = .ok next ∧ amends.Extends (txouts.filterMap fun txout =>
      (getAddressFromScriptCopyIntoArenaWithTxhash txout.script txhash timestamp).map (·, txout.value.toInt64)) next := by
  induction txouts generalizing amends with
  | nil => exact ⟨amends, rfl, .nil⟩
  | cons txout txouts ih =>
    rw [pushCreated]
    cases address : getAddressFromScriptCopyIntoArenaWithTxhash txout.script txhash timestamp with
    | none =>
      rw [List.filterMap_cons_none (by rw [address]; rfl)] at room ⊢
      exact ih room
    | some addressBytes =>
      rw [List.filterMap_cons_some (by rw [address]; rfl)] at room ⊢
      rw [List.length_cons] at room
      obtain ⟨pushed, push, extends_⟩ := @ArenaArray.push_ok _ amends (addressBytes, txout.value.toInt64) (by omega)
      obtain ⟨next, rest, further⟩ := @ih pushed (by rw [extends_.length, extends_.cap]; simp; omega)
      dsimp only
      rw [push, Outcome.ok_bind]
      exact ⟨next, rest, extends_.trans further⟩

/-- The pair that the batch stores for a change. -/
def storedAmend (blockHash : Hash) (amend : Bytes × Int64) : Bytes × Bytes :=
  (amend.1, amendValue blockHash amend.2)

theorem deltaOf_amendValue (delta : Int64) : deltaOf (amendValue blockHash delta) = delta := by
  have holding : Holding ([] : Bytes).length ((⟨⟨emptyHash, blockHash, delta⟩, 0⟩ : IndexEntry).item [])
      ⟨emptyHash, blockHash, delta⟩ :=
    holding_item
  exact holding.delta.symm

/-- The loop over the amends does in the array what the merging of pairs does in a list. -/
theorem pushAmends_ok {merged amends pairs : List (Bytes × Int64)} {front : List (Bytes × Bytes)}
    {result : ArenaArray (Bytes × Bytes)} (made : mergeAmends p merged amends = .ok pairs)
    (shape : result.items = front ++ merged.reverse.map (storedAmend blockHash))
    (room : front.length + merged.length + amends.length ≤ result.cap) :
    ∃ next, pushAmends p blockHash amends (merged.head?.map Prod.fst) result = .ok next ∧
      next.items = front ++ pairs.map (storedAmend blockHash) ∧ next.cap = result.cap := by
  induction amends generalizing merged result with
  | nil =>
    rw [mergeAmends] at made
    cases made
    exact ⟨result, rfl, shape, rfl⟩
  | cons amend amends ih =>
    have length := congrArg List.length shape
    rw [List.length_append, List.length_map, List.length_reverse] at length
    rw [List.length_cons] at room
    cases merged with
    | nil =>
      rw [mergeAmends] at made
      rw [List.length_nil] at length room
      obtain ⟨pushed, push, extends_⟩ := @ArenaArray.push_ok _ result (amend.1, amendValue blockHash amend.2) (by omega)
      obtain ⟨next, rest, items, cap⟩ := @ih [amend] pushed made
        (by rw [extends_.items, shape, List.append_assoc]; rfl) (by rw [extends_.cap, List.length_singleton]; omega)
      rw [pushAmends, if_neg (fun absurd => by cases absurd), Outcome.ok_bind]
      dsimp only
      rw [push, Outcome.ok_bind]
      exact ⟨next, rest, items, cap.trans extends_.cap⟩
    | cons last merged =>
      rw [List.length_cons] at length room
      rw [mergeAmends] at made
      rw [pushAmends, List.head?_cons, Option.map_some]
      by_cases same : last.1 = amend.1
      · rw [if_pos same] at made
        obtain ⟨value, sum, made⟩ := Outcome.bind_eq_ok.mp made
        rw [List.reverse_cons, List.map_append, ← List.append_assoc] at shape
        obtain ⟨popped, pop, items, cap⟩ := ArenaArray.pop_ok shape
        have shorter := congrArg List.length items
        rw [List.length_append, List.length_map, List.length_reverse] at shorter
        obtain ⟨pushed, push, extends_⟩ := @ArenaArray.push_ok _ popped (amend.1, amendValue blockHash value) (by omega)
        obtain ⟨next, rest, items', cap'⟩ := @ih ((amend.1, value) :: merged) pushed made
          (by rw [extends_.items, items, List.reverse_cons, List.map_append, List.append_assoc]; rfl)
          (by rw [extends_.cap, cap, List.length_cons]; omega)
        have before : deltaOf (storedAmend blockHash last).2 = last.2 := deltaOf_amendValue last.2
        rw [if_pos (congrArg some same), pop, Outcome.ok_bind]
        dsimp only
        rw [before, sum, Outcome.ok_bind, Outcome.pure_def, Outcome.ok_bind]
        dsimp only
        rw [push, Outcome.ok_bind]
        exact ⟨next, rest, items', cap'.trans (extends_.cap.trans cap)⟩
      · rw [if_neg same] at made
        obtain ⟨pushed, push, extends_⟩ := @ArenaArray.push_ok _ result (amend.1, amendValue blockHash amend.2) (by omega)
        obtain ⟨next, rest, items, cap⟩ := @ih (amend :: last :: merged) pushed made
          (by
            rw [extends_.items, shape]
            simp only [List.reverse_cons, List.map_append, List.append_assoc]
            rfl)
          (by rw [extends_.cap, List.length_cons, List.length_cons]; omega)
        rw [if_neg fun equal => same (Option.some.inj equal), Outcome.ok_bind]
        dsimp only
        rw [push, Outcome.ok_bind]
        exact ⟨next, rest, items, cap.trans extends_.cap⟩

theorem length_mergeAmends {merged amends pairs : List (Bytes × Int64)} (made : mergeAmends p merged amends = .ok pairs) :
    pairs.length ≤ merged.length + amends.length := by
  induction amends generalizing merged with
  | nil =>
    rw [mergeAmends] at made
    cases made
    rw [List.length_reverse]
    exact Nat.le_add_right _ _
  | cons amend amends ih =>
    rw [List.length_cons]
    cases merged with
    | nil =>
      rw [mergeAmends] at made
      have short := ih made
      rw [List.length_singleton] at short
      omega
    | cons last merged =>
      rw [mergeAmends] at made
      split at made
      · obtain ⟨value, _, made⟩ := Outcome.bind_eq_ok.mp made
        have short := ih made
        rw [List.length_cons] at short ⊢
        omega
      · have short := ih made
        rw [List.length_cons, List.length_cons] at short
        rw [List.length_cons]
        omega

theorem pushTxs_ok {txs : List SerializedTx} {pairs : List (Bytes × Bytes)} {result : ArenaArray (Bytes × Bytes)}
    (made : Outcome.flatMapM (fun tx : SerializedTx => do
      let merged ← mergeAmends p [] (tx.addressAmends.getD [])
      pure (merged.map (storedAmend blockHash))) txs = .ok pairs)
    (room : result.items.length + (txs.map fun tx => (tx.addressAmends.getD []).length).sum ≤ result.cap) :
    ∃ next, pushTxs p blockHash txs result = .ok next ∧ result.Extends pairs next ∧
      pairs.length ≤ (txs.map fun tx => (tx.addressAmends.getD []).length).sum := by
  induction txs generalizing pairs result with
  | nil =>
    cases made
    exact ⟨result, rfl, .nil, le_rfl⟩
  | cons tx txs ih =>
    obtain ⟨first, atFirst, made⟩ := Outcome.bind_eq_ok.mp made
    obtain ⟨others, atOthers, made⟩ := Outcome.bind_eq_ok.mp made
    obtain ⟨merged, merges, shape⟩ := Outcome.bind_eq_ok.mp atFirst
    cases made
    cases shape
    rw [List.map_cons, List.sum_cons] at room ⊢
    have short := length_mergeAmends merges
    rw [List.length_nil, Nat.zero_add] at short
    obtain ⟨pushed, push, items, cap⟩ := @pushAmends_ok p blockHash [] _ merged result.items result merges
      (List.append_nil _).symm (by rw [List.length_nil]; omega)
    have extends_ : result.Extends (merged.map (storedAmend blockHash)) pushed := ⟨items, cap⟩
    obtain ⟨next, rest, further, shorter⟩ := @ih others pushed atOthers
      (by rw [extends_.length, List.length_map, cap]; omega)
    rw [pushTxs, show pushAmends p blockHash (tx.addressAmends.getD []) none result = .ok pushed from push, Outcome.ok_bind]
    refine ⟨next, rest, extends_.trans further, ?_⟩
    rw [List.length_append, List.length_map]
    omega

theorem pushBlocks_ok {blocks : List AnalyzedBlock} {pairs : List (Bytes × Bytes)} {result : ArenaArray (Bytes × Bytes)}
    (made : Outcome.flatMapM (blockAmends p) blocks = .ok pairs)
    (room : result.items.length + (blocks.map AnalyzedBlock.amendsCount).sum ≤ result.cap) :
    ∃ next, pushBlocks p blocks result = .ok next ∧ result.Extends pairs next ∧
      pairs.length ≤ (blocks.map AnalyzedBlock.amendsCount).sum := by
  induction blocks generalizing pairs result with
  | nil =>
    cases made
    exact ⟨result, rfl, .nil, le_rfl⟩
  | cons block blocks ih =>
    obtain ⟨first, atFirst, made⟩ := Outcome.bind_eq_ok.mp made
    obtain ⟨others, atOthers, made⟩ := Outcome.bind_eq_ok.mp made
    cases made
    rw [List.map_cons, List.sum_cons] at room ⊢
    obtain ⟨pushed, push, extends_, short⟩ := @pushTxs_ok p block.hash block.txs first result atFirst
      (by rw [AnalyzedBlock.amendsCount] at room; omega)
    obtain ⟨next, rest, further, shorter⟩ := @ih others pushed atOthers
      (by rw [extends_.length, extends_.cap]; rw [AnalyzedBlock.amendsCount] at room; omega)
    rw [pushBlocks, push, Outcome.ok_bind]
    refine ⟨next, rest, extends_.trans further, ?_⟩
    rw [List.length_append, AnalyzedBlock.amendsCount]
    omega

/-- The array of a batch holds the pairs of the list. -/
theorem collectAmends_ok {blocks : List AnalyzedBlock} {pairs : List (Bytes × Bytes)}
    (made : Outcome.flatMapM (blockAmends p) blocks = .ok pairs) :
    ∃ result, collectAmends p blocks = .ok result ∧ itemsOf result = pairs := by
  obtain ⟨next, pushes, extends_, short⟩ := @pushBlocks_ok p blocks pairs
    (.ofCapacity (blocks.map AnalyzedBlock.amendsCount).sum) made (Nat.zero_add _).le
  by_cases nothing : (blocks.map AnalyzedBlock.amendsCount).sum = 0
  · refine ⟨none, if_pos nothing, ?_⟩
    exact (List.length_eq_zero_iff.mp (by omega)).symm
  · refine ⟨some next, ?_, extends_.items⟩
    rw [collectAmends, if_neg nothing, pushes]
    rfl

end Bitlens

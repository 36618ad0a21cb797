import Bitlens.WriteAnalyzed

namespace Bitlens
open Lib

namespace Arrays

def empty : Arrays := ⟨[], [], [], []⟩

def append (a b : Arrays) : Arrays :=
  ⟨a.blockTxs ++ b.blockTxs, a.collapsed ++ b.collapsed, a.spends ++ b.spends, a.amends ++ b.amends⟩

/-- The pairs that a batch writes to one of the two transaction stores. -/
def TxPairs (a : Arrays) (value : SerializedTx → Bytes) (k : Hash) (v : Bytes) : Prop :=
  ∃ tx ∈ a.collapsed, tx.hash ≠ emptyHash ∧ tx.hash = k ∧ value tx = v

/-- The stores after the batch are those before it, overwritten with its pairs. -/
structure Covers (a : Arrays) (s t : Stores) : Prop where
  txs : Holds (a.TxPairs (·.analyzedTx)) s.txs t.txs
  txouts : Holds (a.TxPairs (·.txOuts)) s.txouts t.txouts
  blockTxs : Holds (fun k v => (k, v) ∈ a.blockTxs) s.blockTxs t.blockTxs
  spends : Holds (fun k v => (k, v) ∈ a.spends) s.spends t.spends
  amends : Holds (fun k v => (k, v) ∈ a.amends) s.amends t.amends

variable {a b : Arrays} {s t u : Stores}

theorem Covers.unique {t' : Stores} (one : a.Covers s t) (two : a.Covers s t') : t = t' := by
  cases t
  cases t'
  rw [Stores.mk.injEq]
  exact ⟨one.txs.unique two.txs, one.txouts.unique two.txouts, one.blockTxs.unique two.blockTxs,
    one.spends.unique two.spends, one.amends.unique two.amends⟩

theorem Separate.left (separate : (a.append b).Separate) : a.Separate := by
  obtain ⟨blockTxs, spends, amends, records⟩ := separate
  rw [append, List.map_append] at blockTxs spends amends
  refine ⟨(List.nodup_append.mp blockTxs).1, (List.nodup_append.mp spends).1, (List.nodup_append.mp amends).1, ?_⟩
  intro x inX y inY
  exact records x (List.mem_append_left _ inX) y (List.mem_append_left _ inY)

theorem Separate.right (separate : (a.append b).Separate) : b.Separate := by
  obtain ⟨blockTxs, spends, amends, records⟩ := separate
  rw [append, List.map_append] at blockTxs spends amends
  refine ⟨(List.nodup_append.mp blockTxs).2.1, (List.nodup_append.mp spends).2.1,
    (List.nodup_append.mp amends).2.1, ?_⟩
  intro x inX y inY
  exact records x (List.mem_append_right _ inX) y (List.mem_append_right _ inY)

/-- Pairs of two lists without a common key agree. -/
theorem agree_of_nodup {κ : Type} {front back : List (κ × Bytes)} (keys : ((front ++ back).map Prod.fst).Nodup)
    (k : κ) (v w : Bytes) (inFront : (k, v) ∈ front) (inBack : (k, w) ∈ back) : v = w := by
  rw [List.map_append] at keys
  have apart := (List.nodup_append.mp keys).2.2 k (List.mem_map.mpr ⟨_, inFront, rfl⟩) k
    (List.mem_map.mpr ⟨_, inBack, rfl⟩)
  exact absurd rfl apart

theorem Covers.append (separate : (a.append b).Separate) (first : a.Covers s t) (second : b.Covers t u) :
    (a.append b).Covers s u := by
  have txPairs : ∀ value k v, (a.TxPairs value k v ∨ b.TxPairs value k v) ↔ (a.append b).TxPairs value k v := by
    intro value k v
    unfold TxPairs Arrays.append
    simp only [List.mem_append, or_and_right, exists_or]
  have split : ∀ {κ : Type} (front back : List (κ × Bytes)) (k : κ) (v : Bytes),
      ((k, v) ∈ front ∨ (k, v) ∈ back) ↔ (k, v) ∈ front ++ back :=
    fun _ _ _ _ => List.mem_append.symm
  have sameTx : ∀ x ∈ a.collapsed, ∀ y ∈ b.collapsed, x.hash = y.hash → x.hash ≠ emptyHash →
      x.analyzedTx = y.analyzedTx ∧ x.txOuts = y.txOuts :=
    fun x inA y inB => separate.records x (List.mem_append_left _ inA) y (List.mem_append_right _ inB)
  refine ⟨?_, ?_, ?_, ?_, ?_⟩
  · refine (first.txs.trans second.txs ?_).congr (txPairs _)
    rintro k v w ⟨x, inA, nonzero, rfl, rfl⟩ ⟨y, inB, _, same, rfl⟩
    exact (sameTx x inA y inB same.symm nonzero).1
  · refine (first.txouts.trans second.txouts ?_).congr (txPairs _)
    rintro k v w ⟨x, inA, nonzero, rfl, rfl⟩ ⟨y, inB, _, same, rfl⟩
    exact (sameTx x inA y inB same.symm nonzero).2
  · exact (first.blockTxs.trans second.blockTxs (agree_of_nodup separate.blockTxs)).congr (split _ _)
  · exact (first.spends.trans second.spends (agree_of_nodup separate.spends)).congr (split _ _)
  · exact (first.amends.trans second.amends (agree_of_nodup separate.amends)).congr (split _ _)

/-- The kept transactions of a sorted array have strictly increasing hashes. -/
theorem txEntries_strict {txs : List SerializedTx} (value : SerializedTx → Bytes)
    (sorted : txs.Pairwise fun x y => x.hash ≤ y.hash) : StrictKeys (txEntries value txs) := by
  have strict := (skipRepeats_strict SerializedTx.hash sorted fun tx _ => ByteArr.fill_zero_le tx.hash).2
  rw [StrictKeys, txEntries, List.map_map]
  exact List.pairwise_map.mpr strict

theorem mem_txEntries {txs : List SerializedTx} {value : SerializedTx → Bytes} {k : Hash} {v : Bytes} :
    (k, v) ∈ txEntries value txs ↔ ∃ tx ∈ skipRepeats SerializedTx.hash emptyHash txs, tx.hash = k ∧ value tx = v := by
  simp only [txEntries, List.mem_map, Prod.mk.injEq]

/-- What the two transaction writers leave, when transactions with one hash agree. -/
theorem Separate.holds_txs (value : SerializedTx → Bytes)
    (agree : ∀ x ∈ a.collapsed, ∀ y ∈ a.collapsed, x.hash = y.hash → x.hash ≠ emptyHash → value x = value y)
    (sorts : SortsBy SerializedTx.hash a.collapsed b.collapsed) (store : Hash → Option Bytes) :
    Holds (a.TxPairs value) store (writeSst store (txEntries value b.collapsed)) := by
  have strict := txEntries_strict value sorts.2
  have above := (skipRepeats_strict SerializedTx.hash sorts.2 fun tx _ => ByteArr.fill_zero_le tx.hash).1
  refine (writeSst_holds strict store).congr fun k v => ?_
  rw [mem_txEntries]
  constructor
  · rintro ⟨tx, kept, rfl, rfl⟩
    exact ⟨tx, sorts.1.mem_iff.mp (skipRepeats_subset _ kept), ne_of_gt (above tx kept), rfl, rfl⟩
  · rintro ⟨tx, member, nonzero, rfl, rfl⟩
    obtain ⟨kept, inKept, same⟩ := skipRepeats_keys SerializedTx.hash (sorts.1.mem_iff.mpr member) nonzero
    have inA := sorts.1.mem_iff.mp (skipRepeats_subset _ inKept)
    refine ⟨kept, inKept, same, agree kept inA tx member same ?_⟩
    rw [same]
    exact nonzero

theorem holds_pairs {κ : Type} [LinearOrder κ] {xs ys : List (κ × Bytes)} (keys : (xs.map Prod.fst).Nodup)
    (sorts : SortsBy Prod.fst xs ys) (store : κ → Option Bytes) :
    Holds (fun k v => (k, v) ∈ xs) store (writeSst store ys) :=
  (writeSst_holds (sorts.strictKeys_iff.mpr keys) store).congr fun _ _ => sorts.1.mem_iff

/-- Every result of the sorts is written and has the same effect. -/
theorem Separate.write (separate : a.Separate) (sorts : Sorts a b) (s : Stores) :
    b.Increasing ∧ a.Covers s (s.write b) := by
  refine ⟨⟨txEntries_strict _ sorts.collapsed.2, txEntries_strict _ sorts.collapsed.2,
    sorts.blockTxs.strictKeys_iff.mpr separate.blockTxs, sorts.spends.strictKeys_iff.mpr separate.spends,
    sorts.amends.strictKeys_iff.mpr separate.amends⟩, ?_⟩
  refine ⟨?_, ?_, holds_pairs separate.blockTxs sorts.blockTxs _, holds_pairs separate.spends sorts.spends _,
    holds_pairs separate.amends sorts.amends _⟩
  · refine Separate.holds_txs _ (fun x inX y inY same nonzero => ?_) sorts.collapsed _
    exact (separate.records x inX y inY same nonzero).1
  · refine Separate.holds_txs _ (fun x inX y inY same nonzero => ?_) sorts.collapsed _
    exact (separate.records x inX y inY same nonzero).2

theorem exists_sorts (a : Arrays) : ∃ b, Sorts a b := by
  obtain ⟨blockTxs, sortsBlockTxs⟩ := exists_sortsBy Prod.fst a.blockTxs
  obtain ⟨collapsed, sortsCollapsed⟩ := exists_sortsBy SerializedTx.hash a.collapsed
  obtain ⟨spends, sortsSpends⟩ := exists_sortsBy Prod.fst a.spends
  obtain ⟨amends, sortsAmends⟩ := exists_sortsBy Prod.fst a.amends
  exact ⟨⟨blockTxs, collapsed, spends, amends⟩, sortsBlockTxs, sortsCollapsed, sortsSpends, sortsAmends⟩

/-- Any transaction may be the one that is kept for its hash. -/
theorem exists_sorts_keeping (a : Arrays) {tx : SerializedTx} (member : tx ∈ a.collapsed)
    (nonzero : tx.hash ≠ emptyHash) : ∃ b, Sorts a b ∧ tx ∈ skipRepeats SerializedTx.hash emptyHash b.collapsed := by
  obtain ⟨b, sorts⟩ := exists_sorts a
  obtain ⟨front, back, sortsCollapsed, below⟩ := exists_sortsBy_first SerializedTx.hash member
  refine ⟨{ b with collapsed := front ++ tx :: back }, ⟨sorts.blockTxs, sortsCollapsed, sorts.spends, sorts.amends⟩, ?_⟩
  exact skipRepeats_first _ (fun x inFront => ne_of_lt (below x inFront)) nonzero

end Arrays

variable {p : Profile} {blocks : List AnalyzedBlock} {s t : Stores}

end Bitlens

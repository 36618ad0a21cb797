import Bitlens.StoredRecords

namespace Bitlens
open Lib

/-! The two functions have the same body; the number is cut to 32 bits at the end. -/

def calculateTxSizeWusOwned (tx : Tx) : UInt32 := UInt32.ofNat (calculateTxSizeWus tx)
def calculateTxSizeWusBorrowed (tx : Tx) : UInt32 := UInt32.ofNat (calculateTxSizeWus tx)

inductive TxRef where
  | borrowed (tx : Tx)
  | owned (tx : Tx)

def TxRef.calculateTxSizeWus : TxRef → UInt32
  | .borrowed tx => calculateTxSizeWusBorrowed tx
  | .owned tx => calculateTxSizeWusOwned tx

/-- The weight with the lengths of the program's own encoder: what is not witness counts
four times. -/
def Tx.weight (tx : Tx) : Nat :=
  3 * (serializeTx tx.withoutWitness).length + (serializeTx tx).length

variable {tx : Tx}

theorem length_serializeTxs {α : Type} {item : α → Bytes} {size : α → Nat} (length : ∀ x, (item x).length = size x)
    (xs : List α) :
    (serializeArray item xs).length = lengthVarint (UInt64.ofNat xs.length) + (xs.map size).sum := by
  rw [serializeArray, List.length_append, length_serializeVarint, List.length_flatMap]
  exact congrArg (_ + List.sum ·) (List.map_congr_left fun x _ => length x)

theorem sum_map_mul (xs : List Nat) (factor : Nat) : (xs.map (· * factor)).sum = factor * xs.sum := by
  rw [List.sum_map_mul_right, List.map_id', Nat.mul_comm]

theorem length_serializeTxIn_eq (txin : TxIn) : (serializeTxIn txin).length = txin.serializedLength := by
  rw [length_serializeTxIn, serializeVarstr, List.length_append, length_serializeVarint, TxIn.serializedLength,
    Nat.add_assoc]

/-- The bytes that are not witness, in the sizes that the code adds up. -/
theorem length_withoutWitness (tx : Tx) : (serializeTx tx.withoutWitness).length =
    8 + (lengthVarint (UInt64.ofNat tx.txins.length) + (tx.txins.map TxIn.serializedLength).sum) +
      (lengthVarint (UInt64.ofNat tx.txouts.length) + (tx.txouts.map TxOut.serializedLength).sum) := by
  rw [serializeTx_withoutWitness, List.length_append, List.length_append, List.length_append, length_leBytes, length_leBytes,
    length_serializeTxs length_serializeTxIn_eq, length_serializeTxs length_serializeTxOut]
  omega

/-- The marker and the witnesses come on top. -/
theorem length_serializeTx_eq (tx : Tx) : (serializeTx tx).length = (serializeTx tx.withoutWitness).length +
    match tx.witnessData with
    | some witnessData => 2 + (witnessData.map List.length).sum
    | none => 0 := by
  cases present : tx.witnessData with
  | none => rw [serializeTx_of_no_witness present, Nat.add_zero]
  | some wits =>
    have marker : (witnessMarker tx).length = 2 := by
      rw [witnessMarker, present]
      rfl
    have witnesses : (serializeWitnesses tx).length = (wits.map List.length).sum := by
      rw [serializeWitnesses, present, Option.getD_some, List.length_flatten]
    rw [serializeTx_withoutWitness]
    simp only [serializeTx, List.length_append, marker, witnesses]
    omega

/-- Four times the sizes outside the witnesses, and the witnesses once. -/
theorem calculateTxSizeWus_eq_weight (tx : Tx) : calculateTxSizeWus tx = tx.weight := by
  have txins : (tx.txins.map fun txin => (32 + 4 + 4 + lengthOf txin.sigScript) * 4).sum =
      4 * (tx.txins.map TxIn.serializedLength).sum := by
    rw [← sum_map_mul, List.map_map]
    refine congrArg List.sum (List.map_congr_left fun txin _ => ?_)
    rw [Function.comp_apply, TxIn.serializedLength, lengthOf, Nat.add_assoc 40]
  have txouts : (tx.txouts.map fun txout => (8 + lengthOf txout.script) * 4).sum =
      4 * (tx.txouts.map TxOut.serializedLength).sum := by
    rw [← sum_map_mul, List.map_map]
    refine congrArg List.sum (List.map_congr_left fun txout _ => ?_)
    rw [Function.comp_apply, TxOut.serializedLength, lengthOf, Nat.add_assoc 8]
  rw [calculateTxSizeWus, txins, txouts, Tx.weight, length_serializeTx_eq tx, length_withoutWitness tx]
  cases tx.witnessData with
  | none =>
    dsimp only
    omega
  | some wits =>
    dsimp only
    omega

/-- Both forms have the weight. A transaction that was parsed from 4 MiB is far below the
bound: written again it takes at most twice these bytes. -/
theorem calculateTxSizeWus_weight (tx : Tx) (small : (serializeTx tx).length < 2 ^ 30) :
    (TxRef.borrowed tx).calculateTxSizeWus = (TxRef.owned tx).calculateTxSizeWus ∧
      (TxRef.owned tx).calculateTxSizeWus.toNat =
        3 * (serializeTx tx.withoutWitness).length + (serializeTx tx).length := by
  refine ⟨rfl, ?_⟩
  have part := length_serializeTx_eq tx
  have weight := calculateTxSizeWus_eq_weight tx
  rw [Tx.weight] at weight
  rw [TxRef.calculateTxSizeWus, calculateTxSizeWusOwned, UInt32.toNat_ofNat', weight]
  omega

theorem calculateTxSizeWus_weight_spending :
    (TxRef.borrowed (spendingTx [])).calculateTxSizeWus = (TxRef.owned (spendingTx [])).calculateTxSizeWus ∧
      (TxRef.owned (spendingTx [])).calculateTxSizeWus.toNat =
        3 * (serializeTx (spendingTx []).withoutWitness).length + (serializeTx (spendingTx [])).length :=
  calculateTxSizeWus_weight (spendingTx []) (by decide)

end Bitlens

import Bitlens.BlockSurvey

namespace Bitlens
open Lib

variable {α : Type} {x y rest rest' : Bytes}

/-- Bytes that are decoded off the front of any continuation are a prefix code. -/
theorem Decodes.append_inj {decoder : Bytes → Outcome (α × Nat)} {a b : α} (first : Decodes decoder x a)
    (second : Decodes decoder y b) (same : x ++ rest = y ++ rest') : a = b ∧ x = y ∧ rest = rest' := by
  have one := first rest
  rw [same, second rest'] at one
  obtain ⟨value, length⟩ := Prod.mk.inj (Outcome.ok.inj one)
  exact ⟨value.symm, List.append_inj same length.symm⟩

theorem leBytes_toNat_inj {v w : UInt32} (same : leBytes 4 v.toNat = leBytes 4 w.toNat) : v = w := by
  have value := congrArg leNat same
  have first := v.toNat_lt
  have second := w.toNat_lt
  rw [leNat_leBytes, leNat_leBytes] at value
  refine UInt32.toNat_inj.mp ?_
  omega

theorem leBytes_append_inj {v w : UInt32} (same : leBytes 4 v.toNat ++ rest = leBytes 4 w.toNat ++ rest') :
    v = w ∧ rest = rest' := by
  obtain ⟨bytes, behind⟩ := List.append_inj same (by rw [length_leBytes, length_leBytes])
  exact ⟨leBytes_toNat_inj bytes, behind⟩

theorem flatten_append_inj {xs ys : List Bytes} (count : xs.length = ys.length)
    (decodesX : ∀ w ∈ xs, Decodes deserializeArrayOfVarstrAsVarstr w w)
    (decodesY : ∀ w ∈ ys, Decodes deserializeArrayOfVarstrAsVarstr w w)
    (same : xs.flatten ++ rest = ys.flatten ++ rest') : xs = ys ∧ rest = rest' := by
  induction xs generalizing ys with
  | nil =>
    have empty : ys = [] := List.length_eq_zero_iff.mp count.symm
    subst empty
    exact ⟨rfl, same⟩
  | cons x xs ih =>
    cases ys with
    | nil => cases count
    | cons y ys =>
      rw [List.flatten_cons, List.flatten_cons, List.append_assoc, List.append_assoc] at same
      obtain ⟨_, equal, same⟩ := (decodesX x List.mem_cons_self).append_inj (decodesY y List.mem_cons_self) same
      obtain ⟨tails, behind⟩ := ih (Nat.succ.inj count) (fun w member => decodesX w (List.mem_cons_of_mem _ member))
        (fun w member => decodesY w (List.mem_cons_of_mem _ member)) same
      exact ⟨by rw [equal, tails], behind⟩

namespace Tx.Readable

variable {tx other : Tx}

/-- The marker tells the two encodings apart, since a count of inputs is not zero. -/
theorem marker_append_inj (readable : tx.Readable) (readable' : other.Readable)
    (same : witnessMarker tx ++ (serializeArray serializeTxIn tx.txins ++ rest) =
      witnessMarker other ++ (serializeArray serializeTxIn other.txins ++ rest')) :
    tx.witnessData.isSome = other.witnessData.isSome ∧
      serializeArray serializeTxIn tx.txins ++ rest = serializeArray serializeTxIn other.txins ++ rest' := by
  obtain ⟨first, second, more, start, nonzero⟩ := serializeArray_head readable.complete
  obtain ⟨first', second', more', start', nonzero'⟩ := serializeArray_head readable'.complete
  unfold witnessMarker at same
  cases present : tx.witnessData.isSome with
  | true =>
    cases present' : other.witnessData.isSome with
    | true =>
      rw [present, present', if_pos rfl] at same
      exact ⟨rfl, List.append_cancel_left same⟩
    | false =>
      rw [present, present', if_pos rfl, if_neg Bool.false_ne_true, start'] at same
      exact absurd (List.cons.inj same).1.symm nonzero'
  | false =>
    cases present' : other.witnessData.isSome with
    | true =>
      rw [present, present', if_pos rfl, if_neg Bool.false_ne_true, start] at same
      exact absurd (List.cons.inj same).1 nonzero
    | false =>
      rw [present, present', if_neg Bool.false_ne_true] at same
      exact ⟨rfl, same⟩

theorem witnesses_append_inj (readable : tx.Readable) (readable' : other.Readable)
    (marked : tx.witnessData.isSome = other.witnessData.isSome) (txins : tx.txins = other.txins)
    (same : serializeWitnesses tx ++ rest = serializeWitnesses other ++ rest') :
    tx.witnessData = other.witnessData ∧ rest = rest' := by
  have counted := readable.witnesses
  have counted' := readable'.witnesses
  unfold serializeWitnesses at same
  cases present : tx.witnessData with
  | none =>
    cases present' : other.witnessData with
    | none =>
      rw [present, present'] at same
      exact ⟨rfl, same⟩
    | some wits' =>
      rw [present, present'] at marked
      cases marked
  | some wits =>
    cases present' : other.witnessData with
    | none =>
      rw [present, present'] at marked
      cases marked
    | some wits' =>
      rw [present, present'] at same
      obtain ⟨count, decodes⟩ := counted wits present
      obtain ⟨count', decodes'⟩ := counted' wits' present'
      obtain ⟨equal, behind⟩ := flatten_append_inj (by rw [count, count', txins]) decodes decodes' same
      exact ⟨by rw [equal], behind⟩

end Tx.Readable

/-- Agreement on everything that `serialize_without_txouts` writes. -/
structure Tx.SameRecord (tx other : Tx) : Prop where
  version : other.version = tx.version
  txins : other.txins = tx.txins
  witnessData : other.witnessData = tx.witnessData
  locktime : other.locktime = tx.locktime

theorem length_txouts_of_readable {tx : Tx} (readable : tx.Readable) : tx.txouts.length < 2 ^ 40 := by
  have small := readable.small
  have count := @length_le_flatMap _ serializeTxOut tx.txouts fun txout _ => by
    rw [serializeTxOut, List.length_append, length_leBytes]
    omega
  simp only [serializeTx, serializeArray, List.length_append] at small
  omega

/-- A transaction without outputs is written like another one only if that one has
no outputs either and agrees on the rest. -/
theorem serializeTx_append_inj {tx other : Tx} (readable : tx.Readable) (readable' : other.Readable)
    (same : serializeTx other.withoutTxouts ++ rest = serializeTx tx ++ rest') :
    tx.txouts = [] ∧ tx.SameRecord other ∧ rest = rest' := by
  have count := length_txouts_of_readable readable
  have left : serializeTx other.withoutTxouts ++ rest = leBytes 4 other.version.toNat ++ (witnessMarker other ++
      (serializeArray serializeTxIn other.txins ++ (serializeVarint 0 ++ (serializeWitnesses other ++
        (leBytes 4 other.locktime.toNat ++ rest))))) := by
    simp only [serializeTx, List.append_assoc]
    rfl
  have right : serializeTx tx ++ rest' = leBytes 4 tx.version.toNat ++ (witnessMarker tx ++
      (serializeArray serializeTxIn tx.txins ++ (serializeVarint (UInt64.ofNat tx.txouts.length) ++
        (tx.txouts.flatMap serializeTxOut ++ (serializeWitnesses tx ++ (leBytes 4 tx.locktime.toNat ++ rest')))))) := by
    simp only [serializeTx, serializeArray, List.append_assoc]
  rw [left, right] at same
  obtain ⟨version, same⟩ := leBytes_append_inj same
  obtain ⟨marked, same⟩ := readable'.marker_append_inj readable same
  obtain ⟨txins, _, same⟩ := readable'.complete.decodes_txins.append_inj readable.complete.decodes_txins same
  obtain ⟨outputs, _, same⟩ := (decodes_varint 0).append_inj (decodes_varint _) same
  have none : tx.txouts = [] := by
    have value := congrArg UInt64.toNat outputs
    rw [toNat_ofNat_length (by omega)] at value
    exact List.length_eq_zero_iff.mp value.symm
  rw [none, List.flatMap_nil, List.nil_append] at same
  obtain ⟨witnessData, same⟩ := readable'.witnesses_append_inj readable marked txins same
  obtain ⟨locktime, same⟩ := leBytes_append_inj same
  exact ⟨none, ⟨version, txins, witnessData, locktime⟩, same⟩

theorem serializeTx_of_sameRecord {tx other : Tx} (none : tx.txouts = []) (record : tx.SameRecord other) :
    serializeTx other.withoutTxouts = serializeTx tx := by
  obtain ⟨version, txins, witnessData, locktime⟩ := record
  simp only [serializeTx, Tx.withoutTxouts, witnessMarker, serializeWitnesses, version, txins, witnessData, locktime, none]

end Bitlens

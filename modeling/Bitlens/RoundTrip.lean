import Bitlens.BlockStore
import Bitlens.Lib.CompactSize

namespace Bitlens
open Lib

variable {α : Type} {buffer front bytes rest : Bytes} {offset width : Nat}

/-- The decoder reads the value off the front of whatever starts with the bytes. -/
def Decodes (decoder : Bytes → Outcome (α × Nat)) (bytes : Bytes) (value : α) : Prop :=
  ∀ rest, decoder (bytes ++ rest) = .ok (value, bytes.length)

/-! Reads on the heap, with the buffer split at the bytes that are read. -/

theorem add_ok {a b : Nat} (small : a + b < 2 ^ 64) : (add a b : Outcome Nat) = .ok (a + b) :=
  Profile.add_of_lt small

theorem addLength_ok {a b : Nat} (small : a + b < 2 ^ 64) : (addLength a b : Outcome Nat) = .ok (a + b) :=
  Profile.add_of_lt small

theorem tryAllocArray_ok {layout : Layout} {count : Nat} : (tryAllocArray layout count : Outcome Unit) = .ok () := rfl

theorem getRange_split (split : buffer = front ++ (bytes ++ rest)) (start : front.length = offset)
    (length : bytes.length = width) : getRange buffer offset (offset + width) = some bytes := by
  subst split start length
  refine getRange_eq_some.mpr ⟨Nat.le_add_right _ _, by simp only [List.length_append]; omega, ?_⟩
  rw [← List.append_assoc, List.take_left' List.length_append, List.drop_left]

theorem getBytes_ok (split : buffer = front ++ (bytes ++ rest)) (start : front.length = offset)
    (length : bytes.length = width) (small : offset + width < 2 ^ 64) :
    (getBytes width buffer offset : Outcome Bytes) = .ok bytes := by
  rw [getBytes, add_ok small, Outcome.ok_bind, getRange_split split start length]
  rfl

theorem getU16Le_ok {value : Nat} (split : buffer = front ++ (leBytes 2 value ++ rest)) (start : front.length = offset)
    (small : offset + 2 < 2 ^ 64) : (getU16Le buffer offset : Outcome UInt16) = .ok (UInt16.ofNat value) := by
  rw [getU16Le, getBytes_ok split start (length_leBytes _ _) small, Outcome.ok_bind, leNat_leBytes]
  exact congrArg Outcome.ok (UInt16.toNat_inj.mp (by simp))

theorem getU32Le_ok {value : UInt32} (split : buffer = front ++ (leBytes 4 value.toNat ++ rest))
    (start : front.length = offset) (small : offset + 4 < 2 ^ 64) :
    (getU32Le buffer offset : Outcome UInt32) = .ok value := by
  rw [getU32Le, getBytes_ok split start (length_leBytes _ _) small, Outcome.ok_bind, leNat_leBytes]
  exact congrArg Outcome.ok (UInt32.toNat_inj.mp (by simp))

theorem getU64Le_ok {value : UInt64} (split : buffer = front ++ (leBytes 8 value.toNat ++ rest))
    (start : front.length = offset) (small : offset + 8 < 2 ^ 64) :
    (getU64Le buffer offset : Outcome UInt64) = .ok value := by
  rw [getU64Le, getBytes_ok split start (length_leBytes _ _) small, Outcome.ok_bind, leNat_leBytes]
  exact congrArg Outcome.ok (UInt64.toNat_inj.mp (by simp))

theorem getHash_ok {hash : Hash} (split : buffer = front ++ (hash.1 ++ rest)) (start : front.length = offset)
    (small : offset + 32 < 2 ^ 64) : (getHash buffer offset : Outcome Hash) = .ok hash := by
  rw [getHash, getBytes_ok split start hash.2 small, Outcome.ok_bind, ByteArr.ofBytes, dif_pos hash.2]
  rfl

theorem withOffset_ok (split : buffer = front ++ rest) (start : front.length = offset) :
    (withOffset buffer offset : Outcome Bytes) = .ok rest := by
  subst split start
  have found : getRange (front ++ rest) front.length (front ++ rest).length = some rest := by
    refine getRange_eq_some.mpr ⟨by rw [List.length_append]; omega, le_rfl, ?_⟩
    rw [List.take_length, List.drop_left]
  rw [withOffset, found]
  rfl

/-- Every form of a value is read as the value. -/
theorem decodes_form {v : UInt64} (form : CompactForm v.toNat bytes) : Decodes deserializeVarint bytes v := by
  intro rest
  cases form with
  | one small =>
    have byte : (UInt8.ofNat (v.toNat % 256)).toNat = v.toNat := by
      rw [UInt8.toNat_ofNat']
      omega
    have leader : UInt8.ofNat (v.toNat % 256) < 0xFD := by
      rw [UInt8.lt_iff_toNat_lt, byte]
      exact small
    have value : (UInt8.ofNat (v.toNat % 256)).toUInt64 = v := UInt64.toNat_inj.mp (by rw [UInt8.toNat_toUInt64, byte])
    rw [leBytes, leBytes, List.cons_append, deserializeVarint, if_pos leader, value]
    rfl
  | two small =>
    have read := @getU16Le_ok (0xFD :: (leBytes 2 v.toNat ++ rest)) [0xFD] rest 1 v.toNat rfl rfl (by decide)
    have value : (UInt16.ofNat v.toNat).toUInt64 = v := by
      refine UInt64.toNat_inj.mp ?_
      rw [UInt16.toNat_toUInt64, UInt16.toNat_ofNat']
      exact Nat.mod_eq_of_lt small
    rw [List.cons_append, deserializeVarint, if_neg (by decide), if_pos rfl, read, Outcome.ok_bind, List.length_cons,
      length_leBytes, value]
    rfl
  | four small =>
    have fits : (UInt32.ofNat v.toNat).toNat = v.toNat := by
      rw [UInt32.toNat_ofNat']
      exact Nat.mod_eq_of_lt small
    have read := @getU32Le_ok (0xFE :: (leBytes 4 v.toNat ++ rest)) [0xFE] rest 1 (UInt32.ofNat v.toNat)
      (by rw [fits]; rfl) rfl (by decide)
    have value : (UInt32.ofNat v.toNat).toUInt64 = v := UInt64.toNat_inj.mp (by rw [UInt32.toNat_toUInt64, fits])
    rw [List.cons_append, deserializeVarint, if_neg (by decide), if_neg (by decide), if_pos rfl, read, Outcome.ok_bind,
      List.length_cons, length_leBytes, value]
    rfl
  | eight small =>
    have read := @getU64Le_ok (0xFF :: (leBytes 8 v.toNat ++ rest)) [0xFF] rest 1 v rfl rfl (by decide)
    rw [List.cons_append, deserializeVarint, if_neg (by decide), if_neg (by decide), if_neg (by decide), read,
      Outcome.ok_bind, List.length_cons, length_leBytes]
    rfl

theorem serializeVarint_form (v : UInt64) : CompactForm v.toNat (serializeVarint v) := by
  unfold serializeVarint
  split
  · next small => exact .one (UInt64.lt_iff_toNat_lt.mp small)
  split
  · next small => exact .two ((UInt64.lt_iff_toNat_lt.mp small).trans (by decide))
  split
  · next small => exact .four ((UInt64.lt_iff_toNat_lt.mp small).trans (by decide))
  · exact .eight v.toNat_lt

theorem decodes_varint (v : UInt64) : Decodes deserializeVarint (serializeVarint v) v :=
  decodes_form (serializeVarint_form v)

theorem deserializeVarint_le {count : UInt64} {size : Nat}
    (read : (deserializeVarint buffer : Outcome (UInt64 × Nat)) = .ok (count, size)) : size ≤ 9 := by
  unfold deserializeVarint at read
  split at read
  · cases read
  split at read
  · cases read
    decide
  split at read
  · obtain ⟨_, _, read⟩ := Outcome.bind_eq_ok.mp read
    cases read
    decide
  split at read
  · obtain ⟨_, _, read⟩ := Outcome.bind_eq_ok.mp read
    cases read
    decide
  · obtain ⟨_, _, read⟩ := Outcome.bind_eq_ok.mp read
    cases read
    decide

theorem length_serializeVarint_le (v : UInt64) : (serializeVarint v).length ≤ 9 := by
  rw [length_serializeVarint, lengthVarint]
  split
  · omega
  split
  · omega
  split <;> omega

theorem toNat_ofNat_length {n : Nat} (small : n < 2 ^ 64) : (UInt64.ofNat n).toNat = n :=
  UInt64.toNat_ofNat_of_lt' small

theorem ensure_ok {condition : Prop} [Decidable condition] (holds : condition) :
    (ensure condition : Outcome Unit) = .ok () :=
  if_pos holds

theorem decodes_varstr {v : Bytes} (small : (serializeVarstr v).length < 2 ^ 64) :
    Decodes deserializeVarstr (serializeVarstr v) v := by
  intro rest
  rw [serializeVarstr, List.length_append] at small
  have length : (UInt64.ofNat v.length).toNat = v.length := toNat_ofNat_length (by omega)
  have enough : ¬ (serializeVarint (UInt64.ofNat v.length) ++ (v ++ rest)).length <
      v.length + (serializeVarint (UInt64.ofNat v.length)).length := by
    simp only [List.length_append]
    omega
  have slice := @getRange_split _ _ v rest _ v.length rfl (Eq.refl (serializeVarint (UInt64.ofNat v.length)).length) rfl
  rw [serializeVarstr, List.append_assoc, deserializeVarstr, decodes_varint, Outcome.ok_bind]
  dsimp only
  rw [length, addLength_ok (by omega), Outcome.ok_bind, ensure_ok enough, Outcome.ok_bind, add_ok small,
    Outcome.ok_bind, slice]
  change (Outcome.ok v >>= fun _ => _) = _
  rw [Outcome.ok_bind, Outcome.ok_bind, List.length_append]
  rfl

/-- Items behind each other are decoded one by one. -/
theorem deserializeItems_ok {item : Bytes → Outcome (α × Nat)} {encode : α → Bytes} {xs : List α}
    (decodes : ∀ x ∈ xs, Decodes item (encode x) x) (split : buffer = front ++ (xs.flatMap encode ++ rest))
    (start : front.length = offset) (small : offset + (xs.flatMap encode).length < 2 ^ 64) :
    deserializeItems item buffer xs.length offset = .ok (xs, offset + (xs.flatMap encode).length) := by
  induction xs generalizing front offset with
  | nil => rfl
  | cons x xs ih =>
    rw [List.flatMap_cons, List.length_append] at small
    rw [List.flatMap_cons, List.append_assoc] at split
    have first := decodes x List.mem_cons_self (xs.flatMap encode ++ rest)
    have behind : buffer = front ++ encode x ++ (xs.flatMap encode ++ rest) := by
      rw [List.append_assoc]
      exact split
    have next := ih (fun y member => decodes y (List.mem_cons_of_mem _ member)) behind
      (show (front ++ encode x).length = offset + (encode x).length by rw [List.length_append, start]) (by omega)
    rw [List.length_cons, deserializeItems, withOffset_ok split start, Outcome.ok_bind, first, Outcome.ok_bind]
    dsimp only
    rw [add_ok (by omega), Outcome.ok_bind, next, Outcome.ok_bind, List.flatMap_cons, List.length_append]
    dsimp only
    rw [Nat.add_assoc]
    rfl

/-- Arrays, whether or not memory is taken from an arena. -/
theorem decodes_items {item : Bytes → Outcome (α × Nat)} {encode : α → Bytes} {xs : List α}
    (decodes : ∀ x ∈ xs, Decodes item (encode x) x) (small : (serializeArray encode xs).length < 2 ^ 64)
    (count : xs.length < 2 ^ 64) (rest : Bytes) :
    (deserializeVarint (serializeArray encode xs ++ rest) >>= fun (count, offset) =>
      deserializeItems item (serializeArray encode xs ++ rest) count.toNat offset) =
        .ok (xs, (serializeArray encode xs).length) := by
  rw [serializeArray, List.length_append] at small
  rw [serializeArray, List.append_assoc, decodes_varint, Outcome.ok_bind]
  dsimp only
  rw [toNat_ofNat_length count, deserializeItems_ok decodes rfl rfl small, List.length_append]

theorem decodes_array {layout : Layout} {item : Bytes → Outcome (α × Nat)} {encode : α → Bytes} {xs : List α}
    (decodes : ∀ x ∈ xs, Decodes item (encode x) x) (small : (serializeArray encode xs).length < 2 ^ 64)
    (count : xs.length < 2 ^ 64) : Decodes (deserializeArray layout item) (serializeArray encode xs) xs :=
  decodes_items decodes small count

theorem length_serializeTxIn (txin : TxIn) :
    (serializeTxIn txin).length = 40 + (serializeVarstr txin.sigScript).length := by
  simp only [serializeTxIn, List.length_append, length_leBytes, txin.prevoutHash.2]
  omega

theorem decodes_txIn {txin : TxIn} (small : (serializeTxIn txin).length < 2 ^ 64) :
    Decodes deserializeTxIn (serializeTxIn txin) txin := by
  intro rest
  rw [length_serializeTxIn] at small
  have head : (txin.prevoutHash.1 ++ leBytes 4 txin.prevoutIndex.toNat).length = 36 := by
    rw [List.length_append, txin.prevoutHash.2, length_leBytes]
  have behindScript : (txin.prevoutHash.1 ++ leBytes 4 txin.prevoutIndex.toNat ++ serializeVarstr txin.sigScript).length =
      (serializeVarstr txin.sigScript).length + 36 := by
    rw [List.length_append, head, Nat.add_comm]
  have shape : serializeTxIn txin ++ rest = txin.prevoutHash.1 ++ (leBytes 4 txin.prevoutIndex.toNat ++
      (serializeVarstr txin.sigScript ++ (leBytes 4 txin.sequence.toNat ++ rest))) := by
    simp only [serializeTxIn, List.append_assoc]
  generalize serializeTxIn txin ++ rest = buffer at shape
  have prevoutHash : (getHash buffer 0 : Outcome Hash) = .ok txin.prevoutHash :=
    @getHash_ok buffer [] _ 0 _ shape rfl (by decide)
  have prevoutIndex : (getU32Le buffer 32 : Outcome UInt32) = .ok txin.prevoutIndex :=
    getU32Le_ok shape txin.prevoutHash.2 (by decide)
  have behindIndex := withOffset_ok (shape.trans (List.append_assoc _ _ _).symm) head
  have regrouped : buffer = (txin.prevoutHash.1 ++ leBytes 4 txin.prevoutIndex.toNat ++ serializeVarstr txin.sigScript) ++
      (leBytes 4 txin.sequence.toNat ++ rest) := by
    rw [shape, List.append_assoc, List.append_assoc]
  have sequence := getU32Le_ok regrouped behindScript (by omega)
  rw [deserializeTxIn, prevoutHash, Outcome.ok_bind, prevoutIndex, Outcome.ok_bind, behindIndex, Outcome.ok_bind,
    decodes_varstr (by omega), Outcome.ok_bind]
  dsimp only
  rw [add_ok (by omega), Outcome.ok_bind, sequence, Outcome.ok_bind, add_ok (by omega), Outcome.ok_bind,
    length_serializeTxIn, Nat.add_comm]
  rfl

/-! Transactions. -/

/-- A transaction that can be read back: it has inputs, its witnesses, one for each
input, are arrays of strings, and its bytes can be counted. -/
structure Tx.Complete (tx : Tx) : Prop where
  txins : tx.txins.isEmpty = false
  witnesses : ∀ wits, tx.witnessData = some wits →
    wits.length = tx.txins.length ∧ ∀ w ∈ wits, Decodes deserializeArrayOfVarstrAsVarstr w w
  small : (serializeTx tx).length < 2 ^ 64

/-- One that is not larger than a packet. -/
structure Tx.Readable (tx : Tx) : Prop where
  txins : tx.txins.isEmpty = false
  witnesses : ∀ wits, tx.witnessData = some wits →
    wits.length = tx.txins.length ∧ ∀ w ∈ wits, Decodes deserializeArrayOfVarstrAsVarstr w w
  small : (serializeTx tx).length < 2 ^ 40

theorem Tx.Readable.complete {tx : Tx} (readable : tx.Readable) : tx.Complete :=
  ⟨readable.txins, readable.witnesses, lt_trans readable.small (by decide)⟩

theorem Tx.Complete.readable {tx : Tx} (complete : tx.Complete) (small : (serializeTx tx).length < 2 ^ 40) : tx.Readable :=
  ⟨complete.txins, complete.witnesses, small⟩

theorem mul_length_le_flatMap {encode : α → Bytes} {xs : List α} {least : Nat} (all : ∀ x ∈ xs, least ≤ (encode x).length) :
    least * xs.length ≤ (xs.flatMap encode).length := by
  induction xs with
  | nil => exact le_rfl
  | cons x xs ih =>
    have first := all x List.mem_cons_self
    have later := ih fun y member => all y (List.mem_cons_of_mem _ member)
    rw [List.flatMap_cons, List.length_append, List.length_cons, Nat.mul_succ]
    omega

theorem length_le_flatMap {encode : α → Bytes} {xs : List α} (positive : ∀ x ∈ xs, 0 < (encode x).length) :
    xs.length ≤ (xs.flatMap encode).length := by
  rw [← Nat.one_mul xs.length]
  exact mul_length_le_flatMap positive

theorem length_flatMap_const {encode : α → Bytes} {n : Nat} (xs : List α) (same : ∀ x ∈ xs, (encode x).length = n) :
    (xs.flatMap encode).length = n * xs.length := by
  induction xs with
  | nil => rfl
  | cons x xs ih =>
    rw [List.flatMap_cons, List.length_append, same x List.mem_cons_self,
      ih fun y member => same y (List.mem_cons_of_mem _ member), List.length_cons, Nat.mul_succ, Nat.add_comm]

theorem length_le_flatMap_of_mem {encode : α → Bytes} {xs : List α} {x : α} (member : x ∈ xs) :
    (encode x).length ≤ (xs.flatMap encode).length := by
  obtain ⟨left, right, rfl⟩ := List.append_of_mem member
  rw [List.flatMap_append, List.flatMap_cons, List.length_append, List.length_append]
  omega

theorem length_txins_le (tx : Tx) : 40 * tx.txins.length ≤ (serializeTx tx).length := by
  have count := @mul_length_le_flatMap _ serializeTxIn tx.txins 40 fun txin _ => by
    rw [length_serializeTxIn]
    omega
  simp only [serializeTx, serializeArray, List.length_append]
  omega

namespace Tx.Complete

variable {tx : Tx}

theorem length_txins (complete : tx.Complete) : (serializeArray serializeTxIn tx.txins).length < 2 ^ 64 := by
  have small := complete.small
  simp only [serializeTx, List.length_append] at small
  omega

theorem count_txins (complete : tx.Complete) : tx.txins.length < 2 ^ 64 := by
  have inputs := lt_of_le_of_lt (length_txins_le tx) complete.small
  omega

theorem decodes_txins (complete : tx.Complete) :
    Decodes (deserializeArray txInLayout deserializeTxIn) (serializeArray serializeTxIn tx.txins) tx.txins := by
  have bound := complete.length_txins
  refine decodes_array (fun txin member => decodes_txIn ?_) bound complete.count_txins
  have within := @length_le_flatMap_of_mem _ serializeTxIn _ txin member
  rw [serializeArray, List.length_append] at bound
  omega

end Tx.Complete

/-- A nonzero compact size does not start with a zero byte. -/
theorem serializeVarint_head {v : UInt64} (positive : v ≠ 0) :
    ∃ leader rest, serializeVarint v = leader :: rest ∧ leader ≠ 0 := by
  have nonzero : v.toNat ≠ 0 := fun zero => positive (UInt64.toNat_inj.mp zero)
  unfold serializeVarint
  split
  · next one =>
    have small : v.toNat < 253 := by simpa using UInt64.lt_iff_toNat_lt.mp one
    refine ⟨UInt8.ofNat (v.toNat % 256), [], rfl, fun zero => nonzero ?_⟩
    have value := congrArg UInt8.toNat zero
    rw [UInt8.toNat_ofNat'] at value
    change v.toNat % 256 % 256 = 0 at value
    omega
  split
  · exact ⟨_, _, rfl, by decide⟩
  split
  · exact ⟨_, _, rfl, by decide⟩
  · exact ⟨_, _, rfl, by decide⟩

/-- Without the marker, the bytes in its place are the count of the inputs and the
start of the first one. -/
theorem serializeArray_head {tx : Tx} (complete : tx.Complete) :
    ∃ first second rest, serializeArray serializeTxIn tx.txins = first :: second :: rest ∧ first ≠ 0 := by
  have count := complete.count_txins
  have positive : UInt64.ofNat tx.txins.length ≠ 0 := by
    intro zero
    have value := congrArg UInt64.toNat zero
    rw [toNat_ofNat_length count] at value
    have empty : tx.txins = [] := List.length_eq_zero_iff.mp value
    have nonempty := complete.txins
    rw [empty] at nonempty
    cases nonempty
  obtain ⟨leader, size, shape, nonzero⟩ := serializeVarint_head positive
  cases inputs : tx.txins with
  | nil =>
    have nonempty := complete.txins
    rw [inputs] at nonempty
    cases nonempty
  | cons txin txins =>
    rw [inputs] at shape
    have first := @length_le_flatMap_of_mem _ serializeTxIn (txin :: txins) txin List.mem_cons_self
    rw [length_serializeTxIn] at first
    cases behind : size ++ (txin :: txins).flatMap serializeTxIn with
    | nil =>
      have empty := congrArg List.length behind
      rw [List.length_append, List.length_nil] at empty
      omega
    | cons second rest =>
      refine ⟨leader, second, rest, ?_, nonzero⟩
      rw [serializeArray, shape, List.cons_append, behind]

/-- What `deserialize_without_txouts` makes of a transaction. -/
def Tx.withoutTxouts (tx : Tx) : Tx :=
  { tx with txouts := [], witnessHash := emptyHash }

/-- The two bytes behind the version tell whether there are witnesses. -/
theorem marker_found {tx : Tx} (complete : tx.Complete)
    (shape : buffer = leBytes 4 tx.version.toNat ++ (witnessMarker tx ++ (serializeArray serializeTxIn tx.txins ++ rest))) :
    ∃ marker, getRange buffer 4 6 = some marker ∧ decide (marker = [0x00, 0x01]) = tx.witnessData.isSome := by
  cases present : tx.witnessData with
  | some wits =>
    rw [witnessMarker, present] at shape
    exact ⟨[0x00, 0x01], getRange_split shape (length_leBytes _ _) rfl, rfl⟩
  | none =>
    obtain ⟨first, second, more, start, nonzero⟩ := serializeArray_head complete
    have split : buffer = leBytes 4 tx.version.toNat ++ ([first, second] ++ (more ++ rest)) := by
      rw [shape, witnessMarker, present, start]
      rfl
    refine ⟨[first, second], getRange_split split (length_leBytes _ _) rfl, ?_⟩
    rw [Option.isSome_none, decide_eq_false_iff_not]
    intro same
    exact nonzero (List.cons.inj same).1

theorem deserializeWitnesses_ok {tx : Tx} (complete : tx.Complete)
    (split : buffer = front ++ (serializeWitnesses tx ++ rest)) (start : front.length = offset)
    (small : offset + (serializeWitnesses tx).length < 2 ^ 64) :
    (deserializeWitnesses tx.witnessData.isSome buffer tx.txins.length offset : Outcome _) =
      .ok (tx.witnessData, offset + (serializeWitnesses tx).length) := by
  cases present : tx.witnessData with
  | none =>
    rw [serializeWitnesses, present]
    rfl
  | some wits =>
    obtain ⟨count, decodes⟩ := complete.witnesses wits present
    have flat : serializeWitnesses tx = wits.flatMap id := by
      rw [serializeWitnesses, present, List.flatMap_id]
      rfl
    rw [flat] at split small ⊢
    have items := @deserializeItems_ok _ _ _ _ _ deserializeArrayOfVarstrAsVarstr id wits decodes split start small
    rw [Option.isSome_some, deserializeWitnesses, if_pos rfl, tryAllocArray_ok, Outcome.ok_bind, ← count, items,
      Outcome.ok_bind]
    rfl

theorem length_serializeWithoutTxouts (tx : Tx) : (serializeWithoutTxouts tx).length =
    4 + (witnessMarker tx).length + (serializeArray serializeTxIn tx.txins).length + (serializeWitnesses tx).length + 4 := by
  simp only [serializeWithoutTxouts, List.length_append, length_leBytes]

theorem length_witnessMarker (tx : Tx) :
    (if tx.witnessData.isSome then 6 else 4) = 4 + (witnessMarker tx).length := by
  unfold witnessMarker
  split <;> rfl

theorem deserializeWithoutTxouts_ok {tx : Tx} (complete : tx.Complete) (rest : Bytes) :
    deserializeWithoutTxouts (serializeWithoutTxouts tx ++ rest) tx.hash =
      .ok (tx.withoutTxouts, (serializeWithoutTxouts tx).length) := by
  have bound := complete.small
  simp only [serializeTx, List.length_append, length_leBytes] at bound
  have start := length_witnessMarker tx
  have version4 := length_leBytes 4 tx.version.toNat
  have shape : serializeWithoutTxouts tx ++ rest = leBytes 4 tx.version.toNat ++ (witnessMarker tx ++
      (serializeArray serializeTxIn tx.txins ++ (serializeWitnesses tx ++ (leBytes 4 tx.locktime.toNat ++ rest)))) := by
    simp only [serializeWithoutTxouts, List.append_assoc]
  rw [length_serializeWithoutTxouts]
  generalize serializeWithoutTxouts tx ++ rest = buffer at shape
  have version : (getU32Le buffer 0 : Outcome UInt32) = .ok tx.version := @getU32Le_ok buffer [] _ 0 _ shape rfl (by decide)
  obtain ⟨marker, found, marked⟩ := marker_found complete shape
  have atTxins := shape.trans (List.append_assoc _ _ _).symm
  have behindMarker := withOffset_ok atTxins (by rw [List.length_append, version4, ← start])
  have txins := complete.decodes_txins (serializeWitnesses tx ++ (leBytes 4 tx.locktime.toNat ++ rest))
  change deserializeArrayOwned deserializeTxIn _ = _ at txins
  have atWitnesses := atTxins.trans (List.append_assoc _ _ _).symm
  have witnesses := deserializeWitnesses_ok complete atWitnesses
    (by rw [List.length_append, List.length_append, version4, ← start]) (by omega)
  have atLocktime := atWitnesses.trans (List.append_assoc _ _ _).symm
  have locktime := getU32Le_ok atLocktime
    (by rw [List.length_append, List.length_append, List.length_append, version4, ← start]) (by omega)
  rw [deserializeWithoutTxouts, version, Outcome.ok_bind, found]
  change (Outcome.ok marker >>= _) = _
  rw [Outcome.ok_bind]
  simp only [marked]
  rw [behindMarker, Outcome.ok_bind, txins, Outcome.ok_bind]
  dsimp only
  rw [add_ok (by omega), Outcome.ok_bind, ensure_ok complete.txins, Outcome.ok_bind, witnesses, Outcome.ok_bind]
  dsimp only
  rw [locktime, Outcome.ok_bind, add_ok (by omega), Outcome.ok_bind, start]
  rfl

end Bitlens

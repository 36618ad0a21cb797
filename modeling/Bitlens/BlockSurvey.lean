import Bitlens.VarstrArrays

namespace Bitlens.Lib.Agrees
open Bitlens

variable {α : Type} {buffer : Bytes} {offset width : Nat}

/-- The result of a decoder that stays within its buffer. -/
def Within (buffer : Bytes) (result : α × Nat) : Prop :=
  result.2 ≤ buffer.length

/-- Encoding the value again takes at most twice the bytes that were read:
`0xFFFF` is read from three bytes and written as five. -/
def Reads (encode : α → Bytes) (buffer : Bytes) (result : α × Nat) : Prop :=
  Within buffer result ∧ (encode result.1).length ≤ 2 * result.2

/-! Each decoder agrees with its survey as long as its buffer is no longer than a packet
can be: its own sums are small, and its slices are in bounds. -/

theorem getBytes (small : offset + width < 2 ^ 64) :
    Agrees (fun bytes => bytes.length = width ∧ offset + width ≤ buffer.length) (getBytes width buffer offset)
      (getBytes width buffer offset) := by
  refine .bind (.add small) fun stop same => ?_
  subst same
  refine (Agrees.orBail _).mono fun bytes found => ?_
  have length := length_of_getRange found
  have inBounds := (getRange_eq_some.mp found).2.1
  omega

theorem getU16 (small : offset + 2 < 2 ^ 64) :
    Agrees (fun _ => offset + 2 ≤ buffer.length) (getU16 buffer offset) (getU16 buffer offset) :=
  .bind (.getBytes small) fun _ read => .pure read.2

theorem getU16Le (small : offset + 2 < 2 ^ 64) :
    Agrees (fun _ => offset + 2 ≤ buffer.length) (getU16Le buffer offset) (getU16Le buffer offset) :=
  .bind (.getBytes small) fun _ read => .pure read.2

theorem getU32Le (small : offset + 4 < 2 ^ 64) :
    Agrees (fun _ => offset + 4 ≤ buffer.length) (getU32Le buffer offset) (getU32Le buffer offset) :=
  .bind (.getBytes small) fun _ read => .pure read.2

theorem getU64Le (small : offset + 8 < 2 ^ 64) :
    Agrees (fun _ => offset + 8 ≤ buffer.length) (getU64Le buffer offset) (getU64Le buffer offset) :=
  .bind (.getBytes small) fun _ read => .pure read.2

theorem getHash (small : offset + 32 < 2 ^ 64) :
    Agrees (fun _ => offset + 32 ≤ buffer.length) (getHash buffer offset) (getHash buffer offset) :=
  .bind (.getBytes small) fun _ read => (Agrees.orBail _).mono fun _ _ => read.2

theorem withOffset :
    Agrees (fun rest => offset ≤ buffer.length ∧ rest.length = buffer.length - offset) (withOffset buffer offset)
      (withOffset buffer offset) := by
  refine (Agrees.orBail _).mono fun rest found => ?_
  exact ⟨(getRange_eq_some.mp found).1, length_of_getRange found⟩

theorem deserializeVarint :
    Agrees (fun result => Reads serializeVarint buffer result ∧ result.2 ≤ 9) (deserializeVarint buffer)
      (deserializeVarint buffer) := by
  unfold Bitlens.deserializeVarint
  cases buffer with
  | nil => exact .bail
  | cons leader rest =>
    refine .ite (fun small => .pure ⟨⟨?_, ?_⟩, by dsimp only; omega⟩) fun _ => ?_
    · rw [Within, List.length_cons]
      omega
    · have byte : leader.toUInt64 < 0xFD := by
        rw [UInt64.lt_iff_toNat_lt, UInt8.toNat_toUInt64]
        exact UInt8.lt_iff_toNat_lt.mp small
      rw [length_serializeVarint, lengthVarint, if_pos byte]
      omega
    refine .ite (fun _ => .bind (.getU16Le (by decide)) fun value read => .pure ⟨⟨read, ?_⟩, by dsimp only; omega⟩) fun _ => ?_
    · have bound : value.toUInt64 < 0xFFFFFFFF := by
        have small := value.toNat_lt
        rw [UInt64.lt_iff_toNat_lt, UInt16.toNat_toUInt64]
        exact Nat.lt_trans small (by decide)
      rw [length_serializeVarint, lengthVarint, if_pos bound]
      split
      · omega
      split <;> omega
    refine .ite (fun _ => .bind (.getU32Le (by decide)) fun value read => .pure ⟨⟨read, ?_⟩, by dsimp only; omega⟩) fun _ => ?_
    · have written := length_serializeVarint_le value.toUInt64
      dsimp only
      omega
    · refine .bind (.getU64Le (by decide)) fun value read => .pure ⟨⟨read, ?_⟩, by dsimp only; omega⟩
      have written := length_serializeVarint_le value
      dsimp only
      omega

theorem deserializeVarstr (short : buffer.length < 2 ^ 63) :
    Agrees (Reads serializeVarstr buffer) (deserializeVarstr buffer) (deserializeVarstr buffer) := by
  refine .bind .deserializeVarint fun (length, offset) read => ?_
  have written : (serializeVarint length).length ≤ 2 * offset := read.1.2
  refine .bind .addLength fun needed same => ?_
  refine .bind (.ensure _) fun _ enough => ?_
  have inBounds : offset + length.toNat ≤ buffer.length := by omega
  refine .bind (.add (by omega)) fun stop same => ?_
  subst same
  have slice := getRange_eq_some.mpr ⟨Nat.le_add_right offset length.toNat, inBounds, rfl⟩
  have count := length_of_getRange slice
  refine .bind (.unwrap slice) fun bytes same => ?_
  subst same
  refine .bind (.add (by omega)) fun consumed same => ?_
  subst same
  refine .pure ⟨inBounds, ?_⟩
  have length : UInt64.ofNat (((buffer.take (offset + length.toNat)).drop offset).length) = length := by
    rw [count, Nat.add_sub_cancel_left, UInt64.ofNat_toNat]
  dsimp only
  rw [serializeVarstr, List.length_append, length]
  omega

theorem skipVarstrs (short : buffer.length < 2 ^ 63) (remaining : Nat) :
    Agrees (fun _ => True) (skipVarstrs buffer remaining offset) (skipVarstrs buffer remaining offset) := by
  induction remaining generalizing offset with
  | zero => exact .pure trivial
  | succ remaining ih =>
    refine .bind .withOffset fun rest inBounds => ?_
    refine .bind .deserializeVarint fun (varstrLength, consumed) read => ?_
    have within : consumed ≤ rest.length := read.1.1
    refine .bind (.add (by omega)) fun position _ => ?_
    exact .bind .addLength fun next _ => ih

theorem deserializeArrayOfVarstrAsVarstr (short : buffer.length < 2 ^ 63) :
    Agrees (fun result => Reads id buffer result ∧ Decodes Bitlens.deserializeArrayOfVarstrAsVarstr result.1 result.1)
      (deserializeArrayOfVarstrAsVarstr buffer) (deserializeArrayOfVarstrAsVarstr buffer) := by
  have within : Agrees (Within buffer) (Bitlens.deserializeArrayOfVarstrAsVarstr buffer)
      (Bitlens.deserializeArrayOfVarstrAsVarstr buffer) := by
    refine .bind .deserializeVarint fun (remaining, offset) _ => ?_
    refine .bind (.skipVarstrs short _) fun stop _ => ?_
    exact .bind (.orBail _) fun r found => .pure (getRange_eq_some.mp found).2.1
  refine ⟨within.fits, within.unfit, fun (r, n) found => ?_⟩
  obtain ⟨length, decodes⟩ := decodes_arrayOfVarstr (by omega) found
  refine ⟨⟨within.result _ found, ?_⟩, decodes⟩
  dsimp only [id]
  omega

theorem deserializeItems {item : ∀ {m : Type → Type} [Decoding m], Bytes → m (α × Nat)} (encode : α → Bytes) (P : α → Prop)
    (agrees : ∀ buffer : Bytes, buffer.length < 2 ^ 63 →
      Agrees (fun result => Reads encode buffer result ∧ P result.1) (item buffer) (item buffer))
    (short : buffer.length < 2 ^ 63) (count : Nat) (inBounds : offset ≤ buffer.length) :
    Agrees (fun result => Within buffer result ∧ 2 * offset + (result.1.flatMap encode).length ≤ 2 * result.2 ∧
        result.1.length = count ∧ ∀ x ∈ result.1, P x)
      (deserializeItems item buffer count offset) (deserializeItems item buffer count offset) := by
  induction count generalizing offset with
  | zero => exact .pure ⟨inBounds, le_rfl, rfl, fun _ absent => (List.not_mem_nil absent).elim⟩
  | succ count ih =>
    refine .bind .withOffset fun rest behind => ?_
    refine .bind (agrees rest (by omega)) fun (value, consumed) read => ?_
    obtain ⟨⟨within, written⟩, good⟩ := read
    have within : consumed ≤ rest.length := within
    have written : (encode value).length ≤ 2 * consumed := written
    refine .bind (.add (by omega)) fun next same => ?_
    subst same
    refine .bind (ih (by omega)) fun (values, stop) read => ?_
    obtain ⟨inRest, later, length, all⟩ := read
    have later : 2 * (offset + consumed) + (values.flatMap encode).length ≤ 2 * stop := later
    refine .pure ⟨inRest, ?_, by rw [List.length_cons, length], List.forall_mem_cons.mpr ⟨good, all⟩⟩
    dsimp only
    rw [List.flatMap_cons, List.length_append]
    omega

theorem deserializeArray {item : ∀ {m : Type → Type} [Decoding m], Bytes → m (α × Nat)} (encode : α → Bytes) (P : α → Prop)
    {layout : Layout}
    (agrees : ∀ buffer : Bytes, buffer.length < 2 ^ 63 →
      Agrees (fun result => Reads encode buffer result ∧ P result.1) (item buffer) (item buffer))
    (short : buffer.length < 2 ^ 63) :
    Agrees (fun result => Reads (serializeArray encode) buffer result ∧ ∀ x ∈ result.1, P x)
      (deserializeArray layout item buffer) (deserializeArray layout item buffer) := by
  refine .bind .deserializeVarint fun (count, offset) read => ?_
  have written : (serializeVarint count).length ≤ 2 * offset := read.1.2
  refine .bind .tryAllocArray fun _ _ => ?_
  refine (Agrees.deserializeItems encode P agrees short count.toNat read.1.1).mono fun (values, stop) result => ?_
  obtain ⟨within, later, length, all⟩ := result
  have later : 2 * offset + (values.flatMap encode).length ≤ 2 * stop := later
  refine ⟨⟨within, ?_⟩, all⟩
  have length : UInt64.ofNat values.length = count := by
    rw [show values.length = count.toNat from length, UInt64.ofNat_toNat]
  dsimp only
  rw [serializeArray, List.length_append, length]
  omega

/-- An array whose items are only known to stay within the buffer. -/
theorem deserializePlainArray {item : ∀ {m : Type → Type} [Decoding m], Bytes → m (α × Nat)} {layout : Layout}
    (agrees : ∀ buffer : Bytes, buffer.length < 2 ^ 63 → Agrees (Within buffer) (item buffer) (item buffer))
    (short : buffer.length < 2 ^ 63) :
    Agrees (Within buffer) (Bitlens.deserializeArray layout item buffer) (Bitlens.deserializeArray layout item buffer) := by
  have plain : ∀ buffer : Bytes, buffer.length < 2 ^ 63 →
      Agrees (fun result => Reads (fun _ => []) buffer result ∧ True) (item buffer) (item buffer) :=
    fun buffer short => (agrees buffer short).mono fun _ within => ⟨⟨within, Nat.zero_le _⟩, trivial⟩
  exact (Agrees.deserializeArray (fun _ => []) (fun _ => True) plain short).mono fun _ result => result.1.1

theorem deserializeTxIn (short : buffer.length < 2 ^ 63) :
    Agrees (Reads serializeTxIn buffer) (deserializeTxIn buffer) (deserializeTxIn buffer) := by
  refine .bind (.getHash (by decide)) fun prevoutHash _ => ?_
  refine .bind (.getU32Le (by decide)) fun prevoutIndex _ => ?_
  refine .bind .withOffset fun rest behind => ?_
  refine .bind (.deserializeVarstr (by omega)) fun (script, offset) read => ?_
  obtain ⟨within, written⟩ := read
  have within : offset ≤ rest.length := within
  have written : (serializeVarstr script).length ≤ 2 * offset := written
  refine .bind (.add (by omega)) fun position same => ?_
  refine .bind (.getU32Le (by omega)) fun sequence inBounds => ?_
  refine .bind (.add (by omega)) fun consumed total => ?_
  refine .pure ⟨show consumed ≤ buffer.length by omega, ?_⟩
  dsimp only
  rw [length_serializeTxIn]
  dsimp only
  omega

theorem deserializeTxOut (short : buffer.length < 2 ^ 63) :
    Agrees (Reads serializeTxOut buffer) (deserializeTxOut buffer) (deserializeTxOut buffer) := by
  refine .bind (.getU64Le (by decide)) fun value _ => ?_
  refine .bind .withOffset fun rest behind => ?_
  refine .bind (.deserializeVarstr (by omega)) fun (script, offset) read => ?_
  obtain ⟨within, written⟩ := read
  have within : offset ≤ rest.length := within
  have written : (serializeVarstr script).length ≤ 2 * offset := written
  refine .bind (.add (by omega)) fun consumed total => ?_
  refine .pure ⟨show consumed ≤ buffer.length by omega, ?_⟩
  dsimp only
  rw [serializeTxOut, List.length_append, length_leBytes]
  dsimp only
  omega

theorem reduceAnd {conditions : List Bool} (nonempty : 0 < conditions.length) :
    ∃ value, Bitlens.reduceAnd conditions = some value := by
  cases conditions with
  | nil => cases nonempty
  | cons first rest => exact ⟨_, rfl⟩

theorem range {start stop : Nat} (ordered : start ≤ stop) (inBounds : stop ≤ buffer.length) :
    ∃ bytes, getRange buffer start stop = some bytes :=
  ⟨_, getRange_eq_some.mpr ⟨ordered, inBounds, rfl⟩⟩

theorem deserializeWitnesses {hasWitnessData : Bool} {count : Nat} (short : buffer.length < 2 ^ 63)
    (inBounds : offset ≤ buffer.length) :
    Agrees (fun result => Within buffer result ∧ 2 * offset + ((result.1.getD []).flatten).length ≤ 2 * result.2 ∧
        result.1.isSome = hasWitnessData ∧
        ∀ wits, result.1 = some wits → wits.length = count ∧
          ∀ w ∈ wits, Decodes Bitlens.deserializeArrayOfVarstrAsVarstr w w)
      (deserializeWitnesses hasWitnessData buffer count offset)
      (deserializeWitnesses hasWitnessData buffer count offset) := by
  unfold Bitlens.deserializeWitnesses
  refine .ite (fun marked => ?_) fun unmarked => .pure ⟨inBounds, le_rfl, ?_, fun _ same => by cases same⟩
  · refine .bind .tryAllocArray fun _ _ => ?_
    refine .bind (.deserializeItems id (fun w => Decodes Bitlens.deserializeArrayOfVarstrAsVarstr w w)
      (fun _ => .deserializeArrayOfVarstrAsVarstr) short count inBounds) fun (wits, stop) read => ?_
    obtain ⟨within, later, length, all⟩ := read
    refine .pure ⟨within, ?_, marked.symm, fun wits' same => ?_⟩
    · rw [List.flatMap_id] at later
      exact later
    · cases same
      exact ⟨length, all⟩
  · exact (Bool.eq_false_iff.mpr unmarked).symm

theorem computeHash (sha256 : Bytes → Hash) {hasWitnessData : Bool} {witnessesStart witnessesEnd : Nat}
    (short : buffer.length < 2 ^ 63) (behind : 6 ≤ witnessesStart ∨ hasWitnessData = false)
    (ordered : witnessesStart ≤ witnessesEnd) (inBounds : witnessesEnd + 4 ≤ buffer.length) :
    Agrees (fun _ => True) (computeHash sha256 hasWitnessData buffer witnessesStart witnessesEnd)
      (computeHash sha256 hasWitnessData buffer witnessesStart witnessesEnd) := by
  refine .ite (fun marked => ?_) fun _ => ?_
  · have later : 6 ≤ witnessesStart := behind.resolve_right (by rw [marked]; decide)
    obtain ⟨version, found⟩ := @range buffer 0 4 (by omega) (by omega)
    refine .bind (.unwrap found) fun _ _ => ?_
    obtain ⟨arrays, found⟩ := @range buffer 6 witnessesStart later (by omega)
    refine .bind (.unwrap found) fun _ _ => ?_
    refine .bind (.add (by omega)) fun stop same => ?_
    obtain ⟨locktime, found⟩ := @range buffer witnessesEnd stop (by omega) (by omega)
    exact .bind (.unwrap found) fun _ _ => .pure trivial
  · refine .bind (.add (by omega)) fun stop same => ?_
    obtain ⟨whole, found⟩ := @range buffer 0 stop (by omega) (by omega)
    exact .bind (.unwrap found) fun _ _ => .pure trivial

theorem computeWitnessHash (sha256 : Bytes → Hash) {witnesses : Option (List Bytes)} {hash : Hash} {witnessesEnd : Nat}
    (short : buffer.length < 2 ^ 63) (some : ∀ wits, witnesses = some wits → 0 < wits.length)
    (inBounds : witnessesEnd + 4 ≤ buffer.length) :
    Agrees (fun _ => True) (computeWitnessHash sha256 witnesses hash buffer witnessesEnd)
      (computeWitnessHash sha256 witnesses hash buffer witnessesEnd) := by
  cases witnesses with
  | none => exact .pure trivial
  | some wits =>
    obtain ⟨value, found⟩ := @reduceAnd (wits.map fun txin => txin.length = 1) (by simpa using some wits rfl)
    refine .bind (.unwrap found) fun allTxinsEmpty _ => .ite (fun _ => .pure trivial) fun _ => ?_
    refine .bind (.add (by omega)) fun stop same => ?_
    obtain ⟨whole, found⟩ := @range buffer 0 stop (by omega) (by omega)
    exact .bind (.unwrap found) fun _ _ => .pure trivial

/-- What a decoded transaction is good for: it can be read back from its own bytes. -/
theorem deserializeTx (sha256 : Bytes → Hash) (short : buffer.length < 2 ^ 63) :
    Agrees (fun result => Reads serializeTx buffer result ∧ result.1.Complete) (deserializeTx sha256 buffer)
      (deserializeTx sha256 buffer) := by
  refine .bind (.getU32Le (by decide)) fun version _ => ?_
  refine .bind (.orBail _) fun marker found => ?_
  have startBounds : (if decide (marker = [0x00, 0x01]) then 6 else 4) =
      4 + (if decide (marker = [0x00, 0x01]) then 2 else 0) ∧
      (6 ≤ (if decide (marker = [0x00, 0x01]) then 6 else 4) ∨ decide (marker = [0x00, 0x01]) = false) := by
    cases decide (marker = [0x00, 0x01]) <;> decide
  refine .bind .withOffset fun rest behind => ?_
  have txinItems : ∀ buffer : Bytes, buffer.length < 2 ^ 63 → Agrees (fun result => Reads serializeTxIn buffer result ∧ True)
      (Bitlens.deserializeTxIn buffer) (Bitlens.deserializeTxIn buffer) :=
    fun buffer short => (Agrees.deserializeTxIn short).mono fun _ read => ⟨read, trivial⟩
  refine .bind (.deserializeArray serializeTxIn (fun _ => True) txinItems (by omega)) fun (txins, delta) read => ?_
  have within : delta ≤ rest.length := read.1.1
  have written : (serializeArray serializeTxIn txins).length ≤ 2 * delta := read.1.2
  refine .bind (.add (by omega)) fun txoutsStart same => ?_
  refine .bind (.ensure _) fun _ some => ?_
  have nonempty : 0 < txins.length := List.length_pos_of_ne_nil (List.isEmpty_eq_false_iff.mp some)
  refine .bind .withOffset fun rest' behind' => ?_
  have txoutItems : ∀ buffer : Bytes, buffer.length < 2 ^ 63 →
      Agrees (fun result => Reads serializeTxOut buffer result ∧ True)
        (Bitlens.deserializeTxOut buffer) (Bitlens.deserializeTxOut buffer) :=
    fun buffer short => (Agrees.deserializeTxOut short).mono fun _ read => ⟨read, trivial⟩
  refine .bind (.deserializeArray serializeTxOut (fun _ => True) txoutItems (by omega)) fun (txouts, delta') read => ?_
  have within' : delta' ≤ rest'.length := read.1.1
  have written' : (serializeArray serializeTxOut txouts).length ≤ 2 * delta' := read.1.2
  refine .bind (.add (by omega)) fun witnessesStart same' => ?_
  refine .bind (.deserializeWitnesses short (by omega)) fun (witnesses, witnessesEnd) read => ?_
  obtain ⟨last, ordered, marked, counted⟩ := read
  have last : witnessesEnd ≤ buffer.length := last
  have ordered : 2 * witnessesStart + ((witnesses.getD []).flatten).length ≤ 2 * witnessesEnd := ordered
  have marked : witnesses.isSome = decide (marker = [0x00, 0x01]) := marked
  refine .bind (.getU32Le (by omega)) fun locktime inBounds => ?_
  have behindMarker := startBounds.2.imp_left fun six => show 6 ≤ witnessesStart by omega
  refine .bind (.computeHash sha256 short behindMarker (by omega) inBounds) fun hash _ => ?_
  refine .bind (.computeWitnessHash sha256 short (fun wits same => ?_) inBounds) fun witnessHash _ => ?_
  · rw [(counted wits same).1]
    exact nonempty
  refine .bind (.add (by omega)) fun consumed total => ?_
  have length : (serializeTx ⟨version, locktime, txins, txouts, witnesses, hash, witnessHash⟩).length ≤ 2 * consumed := by
    have start := length_witnessMarker ⟨version, locktime, txins, txouts, witnesses, hash, witnessHash⟩
    dsimp only at start
    rw [marked] at start
    simp only [serializeTx, serializeWitnesses, List.length_append, length_leBytes]
    omega
  have inBuffer : consumed ≤ buffer.length := by omega
  exact .pure ⟨⟨inBuffer, length⟩, some, counted, by dsimp only at length ⊢; omega⟩

theorem deserializeBlockHeader (sha256 : Bytes → Hash) (short : buffer.length < 2 ^ 63) :
    Agrees (Within buffer) (deserializeBlockHeader sha256 buffer) (deserializeBlockHeader sha256 buffer) := by
  refine .bind (.getU32Le (by decide)) fun version _ => ?_
  refine .bind (.getHash (by decide)) fun parent _ => ?_
  refine .bind (.getHash (by decide)) fun merkleRoot _ => ?_
  refine .bind (.getU32Le (by decide)) fun timestamp _ => ?_
  refine .bind (.getU32Le (by decide)) fun bits _ => ?_
  refine .bind (.getU32Le (by decide)) fun nonce minimal => ?_
  refine .bind .withOffset fun rest behind => ?_
  refine .bind .deserializeVarint fun (txsCount, offset) read => ?_
  have within : offset ≤ rest.length := read.1.1
  obtain ⟨bytes, found⟩ := @range buffer 0 80 (by omega) (by omega)
  refine .bind (.unwrap found) fun _ _ => ?_
  refine .bind (.ensure _) fun _ _ => ?_
  refine .bind (.add (by omega)) fun consumed total => ?_
  exact .pure (show consumed ≤ buffer.length by omega)

theorem deserializeBlock (sha256 : Bytes → Hash) (short : buffer.length < 2 ^ 63) :
    Agrees (fun result => Within buffer result ∧ (∀ tx ∈ result.1.txs, tx.Complete) ∧
        (result.1.txs.flatMap serializeTx).length ≤ 2 * buffer.length)
      (deserializeBlock sha256 buffer) (deserializeBlock sha256 buffer) := by
  refine .bind (.deserializeBlockHeader sha256 short) fun (header, _) _ => ?_
  refine .bind .withOffset fun rest behind => ?_
  refine .bind (.deserializeArray serializeTx Tx.Complete (fun _ => .deserializeTx sha256) (by omega)) fun (txs, offset) read => ?_
  have within : offset ≤ rest.length := read.1.1
  have written : (serializeArray serializeTx txs).length ≤ 2 * offset := read.1.2
  rw [serializeArray, List.length_append] at written
  refine .bind (.ensure _) fun _ _ => ?_
  refine .bind (.ensure _) fun _ _ => ?_
  refine .bind (.add (by omega)) fun consumed total => ?_
  exact .pure ⟨show consumed ≤ buffer.length by omega, read.2, by dsimp only; omega⟩

end Bitlens.Lib.Agrees

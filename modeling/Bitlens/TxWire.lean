import Bitlens.BlockSurvey
import Bitlens.WireRoundTrip

namespace Bitlens.Lib.Follows
open Bitlens

variable (buffer : Bytes)

theorem deserializeTxIn : Follows (deserializeTxIn buffer) (deserializeTxIn buffer) := by
  refine .bind (.getHash _ _) fun _ => .bind (.getU32Le _ _) fun _ => .bind (.withOffset _ _) fun _ => ?_
  refine .bind (.deserializeVarstr _) fun (_, _) => .bind (.add _ _) fun _ => .bind (.getU32Le _ _) fun _ => ?_
  exact .bind (.add _ _) fun _ => .pure _

theorem deserializeTxOut : Follows (deserializeTxOut buffer) (deserializeTxOut buffer) := by
  refine .bind (.getU64Le _ _) fun _ => .bind (.withOffset _ _) fun _ => .bind (.deserializeVarstr _) fun (_, _) => ?_
  exact .bind (.add _ _) fun _ => .pure _

theorem skipVarstrs (count offset : Nat) :
    Follows (skipVarstrs buffer count offset) (skipVarstrs buffer count offset) := by
  induction count generalizing offset with
  | zero => exact .pure _
  | succ count ih =>
    refine .bind (.withOffset _ _) fun _ => .bind (.deserializeVarint _) fun (_, _) => .bind (.add _ _) fun _ => ?_
    exact .bind (.addLength _ _) fun next => ih next

theorem deserializeArrayOfVarstrAsVarstr :
    Follows (deserializeArrayOfVarstrAsVarstr buffer) (deserializeArrayOfVarstrAsVarstr buffer) := by
  refine .bind (.deserializeVarint _) fun (_, _) => .bind (.skipVarstrs _ _ _) fun _ => ?_
  exact .bind (.orBail _) fun _ => .pure _

theorem deserializeWitnesses (hasWitnessData : Bool) (count offset : Nat) :
    Follows (deserializeWitnesses hasWitnessData buffer count offset)
      (deserializeWitnesses hasWitnessData buffer count offset) := by
  refine .ite (.bind (.tryAllocArray _ _) fun _ => ?_) (.pure _)
  exact .bind (.deserializeItems _ (fun buffer => .deserializeArrayOfVarstrAsVarstr buffer) _ _) fun _ => .pure _

theorem computeHash (sha256 : Bytes → Hash) (hasWitnessData : Bool) (witnessesStart witnessesEnd : Nat) :
    Follows (computeHash sha256 hasWitnessData buffer witnessesStart witnessesEnd)
      (computeHash sha256 hasWitnessData buffer witnessesStart witnessesEnd) := by
  refine .ite ?_ (.bind (.add _ _) fun _ => .bind (.unwrap _) fun _ => .pure _)
  refine .bind (.unwrap _) fun _ => .bind (.unwrap _) fun _ => .bind (.add _ _) fun _ => ?_
  exact .bind (.unwrap _) fun _ => .pure _

theorem computeWitnessHash (sha256 : Bytes → Hash) (witnesses : Option (List Bytes)) (hash : Hash) (witnessesEnd : Nat) :
    Follows (computeWitnessHash sha256 witnesses hash buffer witnessesEnd)
      (computeWitnessHash sha256 witnesses hash buffer witnessesEnd) := by
  cases witnesses with
  | none => exact .pure _
  | some wits =>
    refine .bind (.unwrap _) fun _ => .ite (.pure _) ?_
    exact .bind (.add _ _) fun _ => .bind (.unwrap _) fun _ => .pure _

theorem deserializeTx (sha256 : Bytes → Hash) : Follows (deserializeTx sha256 buffer) (deserializeTx sha256 buffer) := by
  refine .bind (.getU32Le _ _) fun _ => .bind (.orBail _) fun _ => .bind (.withOffset _ _) fun _ => ?_
  refine .bind (.deserializeArray _ fun buffer => .deserializeTxIn buffer) fun (_, _) => .bind (.add _ _) fun _ => ?_
  refine .bind (.ensure _) fun _ => .bind (.withOffset _ _) fun _ => ?_
  refine .bind (.deserializeArray _ fun buffer => .deserializeTxOut buffer) fun (_, _) => .bind (.add _ _) fun _ => ?_
  refine .bind (.deserializeWitnesses _ _ _ _) fun (_, _) => .bind (.getU32Le _ _) fun _ => ?_
  refine .bind (.computeHash _ _ _ _ _) fun _ => .bind (.computeWitnessHash _ _ _ _ _) fun _ => ?_
  exact .bind (.add _ _) fun _ => .pure _

end Bitlens.Lib.Follows

namespace Bitlens
open Lib

/-- A transaction that has a wire form: it has inputs, and either no witness data or a
stack of strings for each input. -/
structure Tx.WellShaped (tx : Tx) : Prop where
  txins : tx.txins ≠ []
  witnesses : ∀ wits, tx.witnessData = some wits →
    wits.length = tx.txins.length ∧ ∀ w ∈ wits, ∃ items, IsStack w items

/-- `TxOwned::compute_witness_hash`. -/
def Tx.computeWitnessHash (sha256 : Bytes → Hash) (tx : Tx) : Outcome Tx :=
  match tx.witnessData with
  | some wits => do
    -- a single byte is an empty witness
    let allTxinsEmpty ← Outcome.unwrap (reduceAnd (wits.map fun txin => txin.length = 1))
    if allTxinsEmpty then .ok { tx with witnessHash := tx.hash }
    else .ok { tx with witnessHash := digestTwice sha256 (serializeTx tx) }
  | none => .ok { tx with witnessHash := tx.hash }

variable {tx : Tx} {sha256 : Bytes → Hash} {buffer front rest : Bytes}

theorem Tx.WellShaped.complete (shaped : tx.WellShaped) (small : (serializeTx tx).length < 2 ^ 64) : tx.Complete where
  txins := List.isEmpty_eq_false_iff.mpr shaped.txins
  witnesses wits present := by
    obtain ⟨count, all⟩ := shaped.witnesses wits present
    refine ⟨count, fun w member => ?_⟩
    obtain ⟨items, stack⟩ := all w member
    have within : w.length ≤ (serializeTx tx).length := by
      have inside := @length_le_flatMap_of_mem _ id wits w member
      rw [List.flatMap_id] at inside
      simp only [serializeTx, serializeWitnesses, present, Option.getD_some, List.length_append]
      simp only [id] at inside
      omega
    exact stack.decodes (by omega)
  small := small

theorem decodes_txOut {txout : TxOut} (small : (serializeTxOut txout).length < 2 ^ 64) :
    Decodes deserializeTxOut (serializeTxOut txout) txout := by
  intro rest
  rw [serializeTxOut, List.length_append, length_leBytes] at small
  have shape : serializeTxOut txout ++ rest = leBytes 8 txout.value.toNat ++ (serializeVarstr txout.script ++ rest) := by
    rw [serializeTxOut, List.append_assoc]
  have length : (serializeTxOut txout).length = (serializeVarstr txout.script).length + 8 := by
    rw [serializeTxOut, List.length_append, length_leBytes, Nat.add_comm]
  rw [length]
  generalize serializeTxOut txout ++ rest = buffer at shape
  have value : (getU64Le buffer 0 : Outcome UInt64) = .ok txout.value := @getU64Le_ok buffer [] _ 0 _ shape rfl (by decide)
  rw [deserializeTxOut, value, Outcome.ok_bind, withOffset_ok shape (length_leBytes 8 _), Outcome.ok_bind,
    decodes_varstr (by omega), Outcome.ok_bind]
  dsimp only
  rw [add_ok (by omega)]
  rfl

theorem decodes_txouts {txouts : List TxOut} (small : (serializeArray serializeTxOut txouts).length < 2 ^ 64) :
    Decodes (deserializeArray txOutLayout deserializeTxOut) (serializeArray serializeTxOut txouts) txouts := by
  have length : (serializeArray serializeTxOut txouts).length =
      (serializeVarint (UInt64.ofNat txouts.length)).length + (txouts.flatMap serializeTxOut).length := by
    rw [serializeArray, List.length_append]
  have count := @length_le_flatMap _ serializeTxOut txouts fun txout _ => by
    rw [serializeTxOut, List.length_append, length_leBytes]
    omega
  refine decodes_array (fun txout member => decodes_txOut ?_) small (by omega)
  have within := @length_le_flatMap_of_mem _ serializeTxOut _ txout member
  omega

/-- The bytes without the marker and the witnesses. -/
theorem serializeTx_withoutWitness (tx : Tx) : serializeTx tx.withoutWitness = leBytes 4 tx.version.toNat ++
    (serializeArray serializeTxIn tx.txins ++ serializeArray serializeTxOut tx.txouts) ++ leBytes 4 tx.locktime.toNat := by
  simp only [serializeTx, Tx.withoutWitness, witnessMarker, serializeWitnesses, Option.isSome_none, Option.getD_none,
    List.flatten_nil, List.append_nil, List.append_assoc]
  rfl

theorem serializeTx_of_no_witness (none : tx.witnessData = none) : serializeTx tx.withoutWitness = serializeTx tx := by
  rw [Tx.withoutWitness, ← none]

/-- What is hashed: with witnesses the version, the arrays and the locktime, in three slices. -/
theorem computeHash_ok (tx : Tx) (rest : Bytes) {witnessesStart witnessesEnd : Nat}
    (start : 4 + (witnessMarker tx).length + ((serializeArray serializeTxIn tx.txins).length +
      (serializeArray serializeTxOut tx.txouts).length) = witnessesStart)
    (stop : witnessesStart + (serializeWitnesses tx).length = witnessesEnd) (small : witnessesEnd + 4 < 2 ^ 64) :
    (computeHash sha256 tx.witnessData.isSome (serializeTx tx ++ rest) witnessesStart witnessesEnd : Outcome Hash) =
      .ok (digestTwice sha256 (serializeTx tx.withoutWitness)) := by
  have shape : serializeTx tx ++ rest = leBytes 4 tx.version.toNat ++ (witnessMarker tx ++
      ((serializeArray serializeTxIn tx.txins ++ serializeArray serializeTxOut tx.txouts) ++ (serializeWitnesses tx ++
        (leBytes 4 tx.locktime.toNat ++ rest)))) := by
    simp only [serializeTx, List.append_assoc]
  have atArrays := shape.trans (List.append_assoc _ _ _).symm
  have atLocktime := (atArrays.trans (List.append_assoc _ _ _).symm).trans (List.append_assoc _ _ _).symm
  have version := @getRange_split _ [] _ _ 0 4 shape rfl (length_leBytes 4 tx.version.toNat)
  have locktime := getRange_split atLocktime
    (show _ = witnessesEnd by simp only [List.length_append, length_leBytes]; omega) (length_leBytes 4 tx.locktime.toNat)
  cases present : tx.witnessData with
  | some wits =>
    have six : (witnessMarker tx).length = 2 := by
      rw [witnessMarker, present]
      rfl
    have arrays := getRange_split atArrays (show _ = 6 by rw [List.length_append, length_leBytes, six])
      (show _ = witnessesStart - 6 by rw [List.length_append]; omega)
    rw [show 6 + (witnessesStart - 6) = witnessesStart by omega] at arrays
    rw [computeHash, Option.isSome_some, if_pos rfl, version, unwrap_ok, Outcome.ok_bind, arrays, unwrap_ok,
      Outcome.ok_bind, add_ok small, Outcome.ok_bind, locktime, unwrap_ok, Outcome.ok_bind, serializeTx_withoutWitness]
    rfl
  | none =>
    have length : (serializeTx tx).length = witnessesEnd + 4 := by
      simp only [serializeTx, List.length_append, length_leBytes]
      omega
    have whole := @getRange_split _ [] (serializeTx tx) rest 0 _ (Eq.refl (serializeTx tx ++ rest)) rfl length
    rw [Nat.zero_add] at whole
    rw [computeHash, Option.isSome_none, if_neg Bool.false_ne_true, add_ok small, Outcome.ok_bind, whole, unwrap_ok,
      Outcome.ok_bind, serializeTx_of_no_witness present]
    rfl

/-- The hash of the parsed bytes is the one that the transaction computes for itself. -/
theorem computeWitnessHash_ok (complete : tx.Complete) (rest : Bytes) {witnessesEnd : Nat}
    (length : (serializeTx tx).length = witnessesEnd + 4) :
    ∃ v, tx.computeWitnessHash sha256 = .ok v ∧ v = { tx with witnessHash := v.witnessHash } ∧
      (computeWitnessHash sha256 tx.witnessData tx.hash (serializeTx tx ++ rest) witnessesEnd : Outcome Hash) =
        .ok v.witnessHash := by
  have small := complete.small
  unfold Tx.computeWitnessHash Bitlens.computeWitnessHash
  cases present : tx.witnessData with
  | none => exact ⟨_, rfl, by rw [← present], rfl⟩
  | some wits =>
    have some : 0 < (wits.map fun txin : Bytes => decide (txin.length = 1)).length := by
      rw [List.length_map, (complete.witnesses wits present).1]
      exact List.length_pos_of_ne_nil (List.isEmpty_eq_false_iff.mp complete.txins)
    obtain ⟨allTxinsEmpty, found⟩ := Agrees.reduceAnd some
    dsimp only
    rw [found, unwrap_ok, Outcome.ok_bind, Outcome.unwrap_some, Outcome.ok_bind]
    cases allTxinsEmpty with
    | true => exact ⟨_, rfl, by rw [← present], rfl⟩
    | false =>
      have whole := @getRange_split _ [] (serializeTx tx) rest 0 _ (Eq.refl (serializeTx tx ++ rest)) rfl length
      rw [Nat.zero_add] at whole
      rw [if_neg Bool.false_ne_true, if_neg Bool.false_ne_true, add_ok (by omega), Outcome.ok_bind, whole, unwrap_ok,
        Outcome.ok_bind]
      exact ⟨_, rfl, by rw [← present], rfl⟩

/-- The bytes of a transaction are read back as the transaction with its own hashes. -/
theorem deserializeTx_ok (complete : tx.Complete) (hash : tx.hash = digestTwice sha256 (serializeTx tx.withoutWitness))
    (rest : Bytes) : ∃ v, tx.computeWitnessHash sha256 = .ok v ∧ v = { tx with witnessHash := v.witnessHash } ∧
      deserializeTx sha256 (serializeTx tx ++ rest) = Outcome.ok (v, (serializeTx tx).length) := by
  have bound := complete.small
  have start := length_witnessMarker tx
  have version4 := length_leBytes 4 tx.version.toNat
  have length : (serializeTx tx).length = 4 + (witnessMarker tx).length + ((serializeArray serializeTxIn tx.txins).length +
      (serializeArray serializeTxOut tx.txouts).length) + (serializeWitnesses tx).length + 4 := by
    simp only [serializeTx, List.length_append, length_leBytes]
    omega
  have shape : serializeTx tx ++ rest = leBytes 4 tx.version.toNat ++ (witnessMarker tx ++
      (serializeArray serializeTxIn tx.txins ++ (serializeArray serializeTxOut tx.txouts ++ (serializeWitnesses tx ++
        (leBytes 4 tx.locktime.toNat ++ rest))))) := by
    simp only [serializeTx, List.append_assoc]
  obtain ⟨v, computed, same, witnessHash⟩ := @computeWitnessHash_ok tx sha256 complete rest _ length
  have hashed := @computeHash_ok sha256 tx rest _ _ rfl rfl (by omega)
  rw [length]
  refine ⟨v, computed, same, ?_⟩
  generalize serializeTx tx ++ rest = buffer at shape witnessHash hashed
  have version : (getU32Le buffer 0 : Outcome UInt32) = .ok tx.version := @getU32Le_ok buffer [] _ 0 _ shape rfl (by decide)
  obtain ⟨marker, found, marked⟩ := marker_found complete shape
  have atTxins := shape.trans (List.append_assoc _ _ _).symm
  have behindMarker := withOffset_ok atTxins (List.length_append.trans (by rw [version4]))
  have txins := complete.decodes_txins (serializeArray serializeTxOut tx.txouts ++ (serializeWitnesses tx ++
    (leBytes 4 tx.locktime.toNat ++ rest)))
  have atTxouts := atTxins.trans (List.append_assoc _ _ _).symm
  have behindTxins := withOffset_ok atTxouts
    (show _ = 4 + (witnessMarker tx).length + (serializeArray serializeTxIn tx.txins).length by
      rw [List.length_append, List.length_append, version4])
  have txouts := @decodes_txouts tx.txouts (by omega) (serializeWitnesses tx ++ (leBytes 4 tx.locktime.toNat ++ rest))
  have atWitnesses := atTxouts.trans (List.append_assoc _ _ _).symm
  have witnesses := deserializeWitnesses_ok complete atWitnesses
    (show _ = 4 + (witnessMarker tx).length + ((serializeArray serializeTxIn tx.txins).length +
      (serializeArray serializeTxOut tx.txouts).length) by
      simp only [List.length_append, version4]
      omega) (by omega)
  have atLocktime := atWitnesses.trans (List.append_assoc _ _ _).symm
  have locktime := getU32Le_ok atLocktime
    (show _ = 4 + (witnessMarker tx).length + ((serializeArray serializeTxIn tx.txins).length +
      (serializeArray serializeTxOut tx.txouts).length) + (serializeWitnesses tx).length by
      simp only [List.length_append, version4]
      omega) (by omega)
  rw [deserializeTx, version, Outcome.ok_bind, found]
  change (Outcome.ok marker >>= _) = _
  rw [Outcome.ok_bind]
  simp only [marked]
  rw [start, behindMarker, Outcome.ok_bind, txins, Outcome.ok_bind]
  dsimp only
  rw [add_ok (by omega), Outcome.ok_bind, ensure_ok complete.txins, Outcome.ok_bind, behindTxins, Outcome.ok_bind, txouts,
    Outcome.ok_bind]
  dsimp only
  rw [add_ok (by omega), Outcome.ok_bind, Nat.add_assoc (4 + _), witnesses, Outcome.ok_bind]
  dsimp only
  rw [locktime, Outcome.ok_bind, hashed, Outcome.ok_bind, ← hash, witnessHash, Outcome.ok_bind, add_ok (by omega),
    Outcome.ok_bind, same]
  rfl

/-- A transaction that has a wire form is parsed from its bytes, whatever stands behind them:
on the heap, and in every arena that has room for what it asks for. -/
theorem deserializeTx_spec (shaped : tx.WellShaped) (small : (serializeTx tx ++ rest).length < 2 ^ 63) :
    ∃ v, Tx.computeWitnessHash sha256 { tx with hash := digestTwice sha256 (serializeTx tx.withoutWitness) } = .ok v ∧
      v = { tx with hash := digestTwice sha256 (serializeTx tx.withoutWitness), witnessHash := v.witnessHash } ∧
      deserializeTx sha256 (serializeTx tx ++ rest) = Outcome.ok (v, (serializeTx tx).length) ∧
      ∀ (arena : Arena) (consumed : Nat),
        arena.Fits consumed (deserializeTx (m := Survey) sha256 (serializeTx tx ++ rest)).demands →
          ∃ used, deserializeTx (m := Parser) sha256 (serializeTx tx ++ rest) arena consumed =
            .ok ((v, (serializeTx tx).length), used) := by
  have bound : (serializeTx tx).length < 2 ^ 64 := by
    rw [List.length_append] at small
    omega
  have complete := shaped.complete bound
  have hashed : Tx.Complete { tx with hash := digestTwice sha256 (serializeTx tx.withoutWitness) } :=
    ⟨complete.txins, complete.witnesses, complete.small⟩
  obtain ⟨v, computed, same, read⟩ := deserializeTx_ok hashed rfl rest
  refine ⟨v, computed, same, read, fun arena consumed fits => ?_⟩
  refine Follows.deserializeTx _ sha256 arena consumed _ read fun fault => ?_
  exact (Agrees.deserializeTx sha256 small).fault_iff.mp fault fits

/-- A transaction with one input and an empty witness. -/
def segwitTx : Tx :=
  ⟨2, 0, [⟨emptyHash, 0, 0xFFFFFFFF, []⟩], [⟨50, [81]⟩], some [[0]], emptyHash, emptyHash⟩

theorem segwitTx_wellShaped : segwitTx.WellShaped := by
  refine ⟨List.cons_ne_nil _ _, fun wits present => ?_⟩
  cases present
  refine ⟨rfl, fun w member => ⟨[], 0, 1, ?_⟩⟩
  rw [List.mem_singleton.mp member]
  exact ⟨rfl, rfl⟩

theorem deserializeTx_spec_segwit :
    ∃ v, Tx.computeWitnessHash (fun _ => emptyHash) { segwitTx with hash := emptyHash } = .ok v ∧
      deserializeTx (fun _ => emptyHash) (serializeTx segwitTx ++ [7, 7]) = Outcome.ok (v, 64) := by
  obtain ⟨v, computed, _, read, _⟩ := @deserializeTx_spec segwitTx (fun _ => emptyHash) [7, 7] segwitTx_wellShaped (by decide)
  exact ⟨v, computed, read⟩

end Bitlens

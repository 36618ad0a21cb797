import Bitlens.Payload
import Bitlens.StoredRecords
import Bitlens.WitnessScan

namespace Bitlens
open Lib Sigops

/-- The program of an input and what it counts, the last two steps of `count_witness_sigops`. -/
def programSigops (script witness : Bytes) : Outcome Nat := do
  let wp ← getWitnessProgram script
  match wp with
  | some (version, program) => witnessSigops version program witness
  | none => .ok 0

namespace Sigops

/-- The script that is looked at for a program: the output's own or, for a P2SH output,
what its input pushes last. -/
def programScript (txin : TxIn) (txout : TxOut) : Option Bytes :=
  if IsP2sh txout.script then
    if PushOnly txin.sigScript then lastPushed txin.sigScript else none
  else some txout.script

/-- A script of a program's size whose second byte and two do not fit in a byte. -/
def Overlong : Bytes → Prop
  | version :: length :: program =>
    2 ≤ program.length ∧ program.length ≤ 40 ∧ (version = op0 ∨ op1 ≤ version ∧ version ≤ op16) ∧ 254 ≤ length.toNat
  | _ => False

/-- A program of version 0 for the hash of a script. -/
def IsScriptProgram (script : Bytes) : Prop :=
  ∃ program : Bytes, script = [0, 32] ++ program ∧ program.length = 32

/-- An empty stack whose count takes more than one byte. -/
def BlankStack (witness : Bytes) : Prop :=
  ∃ start, (deserializeVarint witness : Outcome (UInt64 × Nat)) = .ok (0, start) ∧ 1 < start

/-- The script and the witness of an input that cannot be counted. -/
def Undecodable (script witness : Bytes) : Prop :=
  Overlong script ∨ IsScriptProgram script ∧ BlankStack witness

/-- The input's program, if it has one, cannot be counted. -/
def Refuses (txin : TxIn) (txout : TxOut) (witness : Bytes) : Prop :=
  ∃ script, programScript txin txout = some script ∧ Undecodable script witness

end Sigops

variable {script witness : Bytes} {accurate : Bool} {total n i : Nat} {last : UInt8} {dependencies : List TxOut}

/-! Scripts. -/

theorem length_scriptOps_le (script : Bytes) : (scriptOps script).length ≤ script.length := by
  induction length : script.length using Nat.strong_induction_on generalizing script with
  | _ size ih =>
    cases script with
    | nil =>
      rw [scriptOps]
      exact Nat.zero_le _
    | cons opcode script =>
      have shorter := length_getScriptOp opcode script
      rw [List.length_cons] at length
      have later := ih _ (by omega) (getScriptOp (opcode :: script)).2 rfl
      rw [scriptOps, List.length_cons]
      omega

theorem length_le_of_operation {op : ScriptOp} {data : Bytes} (member : op ∈ operations script) (pushes : op.2 = some data) :
    data.length ≤ script.length := by
  obtain ⟨tail, splits, _⟩ := operations_splits script
  have within := @length_le_flatMap_of_mem _ ScriptOp.bytes _ op member
  have whole := congrArg List.length splits.whole
  obtain ⟨opcode, operand⟩ := op
  cases pushes
  rw [ScriptOp.bytes, List.length_cons, List.length_append] at within
  rw [List.length_append] at whole
  omega

theorem length_lastPushed {data : Bytes} (found : lastPushed script = some data) : data.length ≤ script.length := by
  obtain ⟨op, member, pushes⟩ := List.mem_filterMap.mp (List.mem_of_getLast? found)
  exact length_le_of_operation member pushes

theorem length_redeemScript {data : Bytes} (found : redeemScript script = some data) : data.length ≤ script.length := by
  unfold redeemScript at found
  split at found
  · exact length_lastPushed (lastPushed_of_pushed found)
  · cases found

theorem decodeOpN_ok {opcode : UInt8} (known : op1 ≤ opcode ∧ opcode ≤ op16) :
    ∃ number, decodeOpN opcode = .ok number ∧ number ≤ 16 := by
  have least := UInt8.le_iff_toNat_le.mp known.1
  have greatest := UInt8.le_iff_toNat_le.mp known.2
  change 81 ≤ opcode.toNat at least
  change opcode.toNat ≤ 96 at greatest
  unfold decodeOpN
  split
  · exact ⟨0, rfl, Nat.zero_le _⟩
  · refine ⟨opcode.toNat - 80, Profile.sub_of_le (show 80 ≤ opcode.toNat by omega), by omega⟩

/-- No operation counts more than twenty. -/
theorem countSigops_ok {ops : List (Option ScriptOp)} (small : total + 20 * ops.length < 2 ^ 32) :
    ∃ n, countSigops accurate ops total last = .ok n ∧ n ≤ total + 20 * ops.length := by
  induction ops generalizing total last with
  | nil => exact ⟨total, rfl, le_rfl⟩
  | cons op ops ih =>
    rw [List.length_cons] at small ⊢
    cases op with
    | none => exact ⟨total, rfl, by omega⟩
    | some op =>
      obtain ⟨opcode, operand⟩ := op
      have step : ∃ next, (if opcode = opChecksig ∨ opcode = opChecksigverify then Profile.dev.add 32 total 1
          else if opcode = opCheckmultisig ∨ opcode = opCheckmultisigverify then
            if accurate ∧ op1 ≤ last ∧ last ≤ op16 then do
              let keys ← decodeOpN last
              Profile.dev.add 32 total keys
            else Profile.dev.add 32 total maxPubkeysPerMultisig
          else .ok total : Outcome Nat) = .ok next ∧ next ≤ total + 20 := by
        split
        · exact ⟨total + 1, Profile.add_of_lt (by omega), by omega⟩
        split
        · split
          · next keyed =>
            obtain ⟨keys, decoded, few⟩ := decodeOpN_ok keyed.2
            exact ⟨total + keys, by rw [decoded]; exact Profile.add_of_lt (by omega), by omega⟩
          · exact ⟨total + 20, Profile.add_of_lt (show total + 20 < _ by omega), le_rfl⟩
        · exact ⟨total, rfl, by omega⟩
      obtain ⟨next, counted, bound⟩ := step
      obtain ⟨n, rest, few⟩ := @ih next opcode (by omega)
      refine ⟨n, ?_, by omega⟩
      rw [countSigops, counted]
      exact rest

theorem getSigopCount_ok (small : 20 * script.length < 2 ^ 32) :
    ∃ n, getSigopCount script accurate = .ok n ∧ n ≤ 20 * script.length := by
  have ops := length_scriptOps_le script
  obtain ⟨n, counted, few⟩ := @countSigops_ok accurate 0 opInvalidopcode (scriptOps script) (by omega)
  exact ⟨n, counted, by omega⟩

theorem count_le (small : 20 * script.length < 2 ^ 32) : count accurate script ≤ 20 * script.length := by
  obtain ⟨n, counted, few⟩ := @getSigopCount_ok script accurate small
  rwa [← getSigopCount_eq_ok counted]

/-- The sum over scripts is at most twenty for each of their bytes. -/
theorem sumSigops_ok {scripts : List Bytes} (small : total + 20 * scripts.flatten.length < 2 ^ 32) :
    ∃ n, sumSigops scripts total = .ok n ∧ n ≤ total + 20 * scripts.flatten.length := by
  induction scripts generalizing total with
  | nil => exact ⟨total, rfl, le_rfl⟩
  | cons script scripts ih =>
    rw [List.flatten_cons, List.length_append] at small ⊢
    obtain ⟨count, counted, few⟩ := @getSigopCount_ok script false (by omega)
    obtain ⟨n, rest, bound⟩ := @ih (total + count) (by omega)
    refine ⟨n, ?_, by omega⟩
    rw [sumSigops, counted, Outcome.ok_bind, Profile.add_of_lt (by omega)]
    exact rest

theorem getSigopCount2_ok {txin : TxIn} {txout : TxOut} (p2sh : IsP2sh txout.script)
    (small : 20 * txin.sigScript.length < 2 ^ 32) :
    ∃ n, getSigopCount2 txout.script txin.sigScript = .ok n ∧ n ≤ 20 * txin.sigScript.length := by
  rw [getSigopCount2, isPayToScriptHash_iff.mpr p2sh, Bool.not_true, if_neg Bool.false_ne_true]
  have redeem := @lastOperand_scriptOps txin.sigScript
  split
  · next data found =>
    rw [found] at redeem
    have short := length_redeemScript redeem.symm
    obtain ⟨n, counted, few⟩ := @getSigopCount_ok data true (by omega)
    exact ⟨n, counted, by omega⟩
  · exact ⟨0, rfl, Nat.zero_le _⟩
  · exact ⟨0, rfl, Nat.zero_le _⟩

theorem sumP2shSigops_ok {txins : List TxIn} (enough : i + txins.length ≤ dependencies.length)
    (small : total + 20 * (txins.flatMap (·.sigScript)).length < 2 ^ 32) :
    ∃ n, sumP2shSigops dependencies txins i total = .ok n ∧ n ≤ total + 20 * (txins.flatMap (·.sigScript)).length := by
  induction txins generalizing i total with
  | nil => exact ⟨total, rfl, le_rfl⟩
  | cons txin txins ih =>
    rw [List.length_cons] at enough
    rw [List.flatMap_cons, List.length_append] at small ⊢
    have inBounds : i < dependencies.length := by omega
    have found : dependencies[i]? = some dependencies[i] := List.getElem?_eq_getElem inBounds
    rw [sumP2shSigops, found, Outcome.unwrap_some, Outcome.ok_bind]
    have step : ∃ next, (if isPayToScriptHash dependencies[i].script then do
          let count ← getSigopCount2 dependencies[i].script txin.sigScript
          Profile.dev.add 32 total count
        else .ok total : Outcome Nat) = .ok next ∧ next ≤ total + 20 * txin.sigScript.length := by
      split
      · next walked =>
        obtain ⟨count, counted, few⟩ := @getSigopCount2_ok txin _ (isPayToScriptHash_iff.mp walked) (by omega)
        exact ⟨total + count, by rw [counted]; exact Profile.add_of_lt (by omega), by omega⟩
      · exact ⟨total, rfl, by omega⟩
    obtain ⟨next, counted, bound⟩ := step
    obtain ⟨n, rest, few⟩ := @ih next (i + 1) (by omega) (by omega)
    refine ⟨n, ?_, by omega⟩
    rw [counted]
    exact rest

/-! Witnesses. -/

/-- The strings that the loop has walked over can be read. -/
theorem exists_items {buffer : Bytes} {remaining offset stop : Nat} (small : buffer.length < 2 ^ 64)
    (skipped : (skipVarstrs buffer remaining offset : Outcome Nat) = .ok stop) (inside : stop ≤ buffer.length) :
    offset ≤ stop ∧ ∃ items,
      (deserializeItems deserializeVarstr buffer remaining offset : Outcome (List Bytes × Nat)) = .ok (items, stop) := by
  induction remaining generalizing offset with
  | zero =>
    cases skipped
    exact ⟨le_rfl, [], rfl⟩
  | succ remaining ih =>
    obtain ⟨rest, behind, skipped⟩ := Outcome.bind_eq_ok.mp skipped
    obtain ⟨⟨length, size⟩, varint, skipped⟩ := Outcome.bind_eq_ok.mp skipped
    obtain ⟨middle, first, skipped⟩ := Outcome.bind_eq_ok.mp skipped
    obtain ⟨next, second, skipped⟩ := Outcome.bind_eq_ok.mp skipped
    obtain ⟨_, rfl⟩ := withOffset_eq_ok behind
    obtain ⟨_, rfl⟩ := Profile.dev_add_eq_ok.mp first
    obtain ⟨fits, rfl⟩ := Profile.dev_add_eq_ok.mp second
    obtain ⟨before, items, later⟩ := ih skipped
    have rest : (buffer.drop offset).length = buffer.length - offset := List.length_drop
    obtain ⟨item, read, _⟩ := deserializeVarstr_both (by omega) varint (by omega)
    refine ⟨by omega, item :: items, ?_⟩
    rw [deserializeItems, behind, Outcome.ok_bind, read, Outcome.ok_bind]
    dsimp only
    rw [add_ok (by omega), Outcome.ok_bind, ← Nat.add_assoc, later]
    rfl

/-- A witness that is read back as one string is a stack. -/
theorem exists_stack (decodes : Decodes deserializeArrayOfVarstrAsVarstr witness witness) (small : witness.length < 2 ^ 64) :
    ∃ stack, IsStack witness stack := by
  have read := decodes []
  rw [List.append_nil] at read
  obtain ⟨⟨count, start⟩, varint, read⟩ := Outcome.bind_eq_ok.mp read
  obtain ⟨stop, skipped, read⟩ := Outcome.bind_eq_ok.mp read
  obtain ⟨bytes, _, same⟩ := Outcome.bind_eq_ok.mp read
  cases same
  obtain ⟨_, items, reads⟩ := exists_items small skipped le_rfl
  exact ⟨items, count, start, varint, reads⟩

/-- There are as many items as announced, none longer than the bytes they are in. -/
theorem length_items {buffer : Bytes} {count offset stop : Nat} {items : List Bytes}
    (read : (deserializeItems deserializeVarstr buffer count offset : Outcome (List Bytes × Nat)) = .ok (items, stop)) :
    items.length = count ∧ ∀ item ∈ items, item.length ≤ buffer.length := by
  induction count generalizing offset items with
  | zero =>
    cases read
    exact ⟨rfl, nofun⟩
  | succ count ih =>
    obtain ⟨rest, behind, read⟩ := Outcome.bind_eq_ok.mp read
    obtain ⟨⟨item, consumed⟩, first, read⟩ := Outcome.bind_eq_ok.mp read
    obtain ⟨next, sum, read⟩ := Outcome.bind_eq_ok.mp read
    obtain ⟨⟨items, last⟩, later, read⟩ := Outcome.bind_eq_ok.mp read
    cases read
    obtain ⟨_, rfl⟩ := withOffset_eq_ok behind
    obtain ⟨length, size, _, rfl, slice, same⟩ := deserializeVarstr_eq_ok first
    obtain ⟨_, inside, _⟩ := getRange_eq_some.mp slice
    rw [List.length_drop] at inside
    obtain ⟨number, short⟩ := ih later
    exact ⟨congrArg (· + 1) number, List.forall_mem_cons.mpr ⟨by omega, short⟩⟩

theorem deserializeVarint_cons {leader : UInt8} {rest : Bytes} {count : UInt64} {start : Nat}
    (read : (deserializeVarint (leader :: rest) : Outcome (UInt64 × Nat)) = .ok (count, start)) :
    1 ≤ start ∧ (start = 1 → count.toNat = leader.toNat) ∧ (leader = 0 → start = 1) := by
  rw [deserializeVarint] at read
  split at read
  · cases read
    refine ⟨le_rfl, fun _ => ?_, fun _ => rfl⟩
    exact leader.toNat_toUInt64
  next large =>
  have nonzero : leader = 0 → False := by
    rintro rfl
    exact large (by decide)
  have wide : 1 < start := by
    split at read
    · obtain ⟨_, _, read⟩ := Outcome.bind_eq_ok.mp read
      cases read
      decide
    split at read
    · obtain ⟨_, _, read⟩ := Outcome.bind_eq_ok.mp read
      cases read
      decide
    · obtain ⟨_, _, read⟩ := Outcome.bind_eq_ok.mp read
      cases read
      decide
  exact ⟨wide.le, fun one => absurd one wide.ne', fun zero => (nonzero zero).elim⟩

/-! Programs. -/

/-- A program is found, or there is none, where the sum for its size fits in a byte. -/
theorem getWitnessProgram_total : (∃ wp, getWitnessProgram script = .ok wp) ↔ ¬ Overlong script := by
  cases script with
  | nil => exact iff_of_true ⟨none, rfl⟩ id
  | cons version script =>
    cases script with
    | nil => exact iff_of_true ⟨none, rfl⟩ id
    | cons length program =>
      rw [getWitnessProgram, Overlong]
      by_cases outside : program.length + 2 < 4 ∨ program.length + 2 > 42
      · rw [if_pos outside]
        exact iff_of_true ⟨none, rfl⟩ fun long => by omega
      rw [if_neg outside]
      by_cases other : version ≠ op0 ∧ (version < op1 ∨ version > op16)
      · rw [if_pos other]
        refine iff_of_true ⟨none, rfl⟩ fun long => ?_
        rcases long.2.2.1 with zero | ⟨least, greatest⟩
        · exact other.1 zero
        · exact other.2.elim (not_lt.mpr least) (not_lt.mpr greatest)
      rw [if_neg other]
      have known : version = op0 ∨ op1 ≤ version ∧ version ≤ op16 := by
        by_cases zero : version = op0
        · exact .inl zero
        · have inside := not_or.mp fun outside => other ⟨zero, outside⟩
          exact .inr ⟨not_lt.mp inside.1, not_lt.mp inside.2⟩
      by_cases large : 254 ≤ length.toNat
      · refine iff_of_false ?_ (not_not.mpr ⟨by omega, by omega, known, large⟩)
        rintro ⟨wp, found⟩
        obtain ⟨size, sum, _⟩ := Outcome.bind_eq_ok.mp found
        have fits := (Profile.dev_add_eq_ok.mp sum).1
        omega
      · refine iff_of_true ?_ fun long => large long.2.2.2
        rw [Profile.add_of_lt (show length.toNat + 2 < 2 ^ 8 by omega), Outcome.ok_bind]
        by_cases same : length.toNat + 2 = program.length + 2
        · rw [if_pos same]
          rcases known with rfl | known
          · exact ⟨some (0, program), rfl⟩
          · obtain ⟨number, decoded, _⟩ := decodeOpN_ok known
            exact ⟨some (number, program), by rw [decoded]; rfl⟩
        · rw [if_neg same]
          exact ⟨none, rfl⟩

/-- The program of version 0 and 32 bytes is found in no other script. -/
theorem isScriptProgram_iff {wp : Option (Nat × Bytes)} (found : getWitnessProgram script = .ok wp) :
    IsScriptProgram script ↔ ∃ program, wp = some (0, program) ∧ program.length = 32 := by
  constructor
  · rintro ⟨program, rfl, length⟩
    refine ⟨program, ?_, length⟩
    rcases @getWitnessProgram_eq_ok 0 32 program wp found with ⟨_, absent⟩ | ⟨number, rfl, zero, _⟩
    · exact (absent rfl ⟨by omega, by omega, length.symm⟩).elim
    · rw [zero.mpr rfl]
  · rintro ⟨program, rfl, length⟩
    cases script with
    | nil => cases found
    | cons version script =>
      cases script with
      | nil => cases found
      | cons size script =>
        rcases getWitnessProgram_eq_ok found with ⟨absurd, _⟩ | ⟨number, same, zero, size'⟩
        · cases absurd
        · cases same
          refine ⟨program, ?_, length⟩
          rw [zero.mp rfl, UInt8.toNat_inj.mp (size'.trans length : size.toNat = (32 : UInt8).toNat)]
          rfl

/-- The stack is empty and its first byte is not zero. -/
theorem blankStack_iff {stack : List Bytes} (stacked : IsStack witness stack) :
    BlankStack witness ↔ witness[0]? ≠ some 0 ∧ stack = [] := by
  obtain ⟨count, start, varint, read⟩ := stacked
  have number := (length_items read).1
  cases witness with
  | nil => cases varint
  | cons leader rest =>
    obtain ⟨least, short, zero⟩ := deserializeVarint_cons varint
    constructor
    · rintro ⟨start', again, long⟩
      cases varint.symm.trans again
      refine ⟨fun first => ?_, List.eq_nil_of_length_eq_zero number⟩
      rw [zero (Option.some.inj first)] at long
      exact Nat.lt_irrefl 1 long
    · rintro ⟨first, rfl⟩
      have none : count = 0 := UInt64.toNat_inj.mp number.symm
      refine ⟨start, none ▸ varint, Nat.lt_of_le_of_ne least fun one => first ?_⟩
      have same := short one.symm
      rw [none] at same
      exact congrArg some (UInt8.toNat_inj.mp same.symm)

/-- A program is counted unless it asks for the last item of an empty stack. -/
theorem witnessSigops_total {version : Nat} {program : Bytes} {stack : List Bytes} (stacked : IsStack witness stack)
    (small : 20 * witness.length < 2 ^ 32) :
    (∃ n, witnessSigops version program witness = .ok n) ↔ ¬ (version = 0 ∧ program.length = 32 ∧ BlankStack witness) := by
  rw [blankStack_iff stacked]
  unfold witnessSigops witnessV0KeyhashSize witnessV0ScripthashSize
  by_cases zero : version = 0
  · rw [if_pos zero]
    by_cases short : program.length = 20
    · rw [if_pos short]
      exact iff_of_true ⟨1, rfl⟩ fun ⟨_, length, _⟩ => by omega
    rw [if_neg short]
    by_cases walked : program.length = 32 ∧ witness ≠ [] ∧ witness[0]? ≠ some 0
    · rw [if_pos walked]
      obtain ⟨count, start, varint, read⟩ := stacked
      rw [varint]
      change (∃ n, (VarStrIter.last witness count.toNat start none >>= _) = .ok n) ↔ _
      rw [VarStrIter.last_eq read, Outcome.ok_bind, Option.or_none]
      cases last : stack.getLast? with
      | none =>
        have empty : stack = [] := List.getLast?_eq_none_iff.mp last
        exact iff_of_false (fun ⟨_, absurd⟩ => nomatch absurd) (not_not.mpr ⟨zero, walked.1, walked.2.2, empty⟩)
      | some item =>
        have within := (length_items read).2 item (List.mem_of_getLast? last)
        obtain ⟨n, counted, _⟩ := @getSigopCount_ok item true (by omega)
        refine iff_of_true ⟨n, counted⟩ ?_
        rintro ⟨_, _, _, rfl⟩
        cases last
    · rw [if_neg walked]
      refine iff_of_true ⟨0, rfl⟩ ?_
      rintro ⟨_, length, first, _⟩
      refine walked ⟨length, ?_, first⟩
      rintro rfl
      obtain ⟨_, _, varint, _⟩ := stacked
      cases varint
  · rw [if_neg zero]
    exact iff_of_true ⟨0, rfl⟩ fun blank => zero blank.1

/-- An input's program is counted unless its size or its stack cannot be read. -/
theorem programSigops_total {stack : List Bytes} (stacked : IsStack witness stack) (small : 20 * witness.length < 2 ^ 32) :
    (∃ n, programSigops script witness = .ok n) ↔ ¬ Undecodable script witness := by
  unfold programSigops
  by_cases long : Overlong script
  · refine iff_of_false ?_ (not_not.mpr (.inl long))
    rintro ⟨n, counted⟩
    obtain ⟨wp, found, _⟩ := Outcome.bind_eq_ok.mp counted
    exact getWitnessProgram_total.mp ⟨wp, found⟩ long
  obtain ⟨wp, found⟩ := getWitnessProgram_total.mpr long
  rw [Undecodable, or_iff_right long, isScriptProgram_iff found, found, Outcome.ok_bind]
  cases wp with
  | none => exact iff_of_true ⟨0, rfl⟩ fun ⟨⟨_, absurd, _⟩, _⟩ => nomatch absurd
  | some wp =>
    obtain ⟨version, program⟩ := wp
    refine (witnessSigops_total stacked small).trans (not_congr ?_)
    constructor
    · rintro ⟨rfl, length, blank⟩
      exact ⟨⟨program, rfl, length⟩, blank⟩
    · rintro ⟨⟨_, same, length⟩, blank⟩
      cases same
      exact ⟨rfl, length, blank⟩

/-- It counts at most twenty for each byte of the witness. -/
theorem programSigops_le {stack : List Bytes} (stacked : IsStack witness stack) (small : 20 * witness.length < 2 ^ 32)
    (counted : programSigops script witness = .ok n) : n ≤ 20 * witness.length := by
  obtain ⟨wp, _, counted⟩ := Outcome.bind_eq_ok.mp counted
  cases wp with
  | none =>
    cases counted
    exact Nat.zero_le _
  | some wp =>
    have positive : 0 < witness.length := by
      obtain ⟨_, _, varint, _⟩ := stacked
      cases witness with
      | nil => cases varint
      | cons leader rest => exact Nat.succ_pos _
    rw [witnessSigops_eq_ok stacked counted]
    split
    · split
      · omega
      split
      · cases last : stack.getLast? with
        | none => exact Nat.zero_le _
        | some item =>
          obtain ⟨_, _, _, read⟩ := stacked
          have within := (length_items read).2 item (List.mem_of_getLast? last)
          have few := @count_le item true (by omega)
          exact few.trans (Nat.mul_le_mul_left 20 within)
      · exact Nat.zero_le _
    · exact Nat.zero_le _

/-! Transactions. -/

section Inputs

variable {txin : TxIn} {txout : TxOut} {flags : UInt32}

theorem countWitnessSigops_eq (flag : flags &&& scriptVerifyWitness ≠ 0) :
    countWitnessSigops txin.sigScript txout.script witness flags =
      match programScript txin txout with
      | some script => programSigops script witness
      | none => .ok 0 := by
  rw [countWitnessSigops, if_neg flag, programScript]
  by_cases p2sh : IsP2sh txout.script
  · rw [if_pos p2sh, getWitnessProgram_of_p2sh p2sh, Outcome.ok_bind]
    dsimp only
    rw [isPayToScriptHash_iff.mpr p2sh, Bool.true_and]
    by_cases only : PushOnly txin.sigScript
    · rw [if_pos only, isPushOnly_iff.mpr only, if_pos rfl, lastData_of_whole only.1]
      cases lastPushed txin.sigScript <;> rfl
    · rw [if_neg only, Bool.eq_false_iff.mpr fun walked => only (isPushOnly_iff.mp walked), if_neg Bool.false_ne_true]
  · rw [if_neg p2sh, Bool.eq_false_iff.mpr fun walked => p2sh (isPayToScriptHash_iff.mp walked)]
    rfl

theorem countWitnessSigops_total {stack : List Bytes} (flag : flags &&& scriptVerifyWitness ≠ 0)
    (stacked : IsStack witness stack) (small : 20 * witness.length < 2 ^ 32) :
    (∃ n, countWitnessSigops txin.sigScript txout.script witness flags = .ok n) ↔ ¬ Refuses txin txout witness := by
  rw [countWitnessSigops_eq flag, Refuses]
  cases programScript txin txout with
  | none => exact iff_of_true ⟨0, rfl⟩ fun ⟨_, absurd, _⟩ => nomatch absurd
  | some script =>
    simp only [Option.some.injEq, exists_eq_left']
    exact programSigops_total stacked small

theorem countWitnessSigops_le {stack : List Bytes} (flag : flags &&& scriptVerifyWitness ≠ 0)
    (stacked : IsStack witness stack) (small : 20 * witness.length < 2 ^ 32)
    (counted : countWitnessSigops txin.sigScript txout.script witness flags = .ok n) : n ≤ 20 * witness.length := by
  rw [countWitnessSigops_eq flag] at counted
  cases found : programScript txin txout with
  | none =>
    rw [found] at counted
    cases counted
    exact Nat.zero_le _
  | some script =>
    rw [found] at counted
    exact programSigops_le stacked small counted

/-- The loop gets through when each input is counted. -/
theorem addWitnessSigops_total {wits : List Bytes} {txins : List TxIn} (flag : flags &&& scriptVerifyWitness ≠ 0)
    (stacked : ∀ w ∈ wits, ∃ stack, IsStack w stack) (paired : dependencies.length = wits.length)
    (length : i + txins.length = wits.length) (small : total + 20 * (wits.drop i).flatten.length < 2 ^ 32) :
    (∃ n, addWitnessSigops dependencies (some wits) flags txins i total = .ok n) ↔
      ∀ txin txout witness, (txin, txout, witness) ∈ txins.zip ((dependencies.drop i).zip (wits.drop i)) →
        ¬ Refuses txin txout witness := by
  induction txins generalizing i total with
  | nil => exact iff_of_true ⟨total, rfl⟩ nofun
  | cons txin txins ih =>
    rw [List.length_cons] at length
    have inBounds : i < dependencies.length := by omega
    have inBounds' : i < wits.length := by omega
    have atTxout : dependencies[i]? = some dependencies[i] := List.getElem?_eq_getElem inBounds
    have atWits : wits[i]? = some wits[i] := List.getElem?_eq_getElem inBounds'
    obtain ⟨stack, stacked'⟩ := stacked wits[i] (List.getElem_mem inBounds')
    rw [drop_of_getElem? atWits, List.flatten_cons, List.length_append] at small
    rw [drop_of_getElem? atTxout, drop_of_getElem? atWits, List.zip_cons_cons, List.zip_cons_cons]
    have first := @countWitnessSigops_total wits[i] txin dependencies[i] flags stack flag stacked' (by omega)
    rw [addWitnessSigops, atTxout, Outcome.unwrap_some, Outcome.ok_bind, Outcome.unwrap_some, Outcome.ok_bind, atWits,
      Outcome.unwrap_some, Outcome.ok_bind]
    by_cases refused : Refuses txin dependencies[i] wits[i]
    · refine iff_of_false ?_ fun all => all _ _ _ List.mem_cons_self refused
      rintro ⟨n, counted⟩
      obtain ⟨count, counted, _⟩ := Outcome.bind_eq_ok.mp counted
      exact first.mp ⟨count, counted⟩ refused
    · obtain ⟨count, counted⟩ := first.mpr refused
      have few := countWitnessSigops_le flag stacked' (by omega) counted
      rw [counted, Outcome.ok_bind, Profile.add_of_lt (by omega), Outcome.ok_bind,
        ih (by omega) (by omega)]
      constructor
      · intro later txin' txout witness member
        rcases List.mem_cons.mp member with same | member
        · cases same
          exact refused
        · exact later txin' txout witness member
      · exact fun all txin' txout witness member => all txin' txout witness (List.mem_cons_of_mem _ member)

end Inputs

/-- The scripts and the witnesses are among the bytes of a transaction. -/
theorem length_scripts_le (tx : Tx) : (tx.txins.flatMap (·.sigScript)).length ≤ (serializeTx tx).length ∧
    (tx.txouts.flatMap (·.script)).length ≤ (serializeTx tx).length ∧
      ∀ wits, tx.witnessData = some wits → wits.flatten.length ≤ (serializeTx tx).length := by
  have atTxins : (tx.txins.flatMap (·.sigScript)).length ≤ (tx.txins.flatMap serializeTxIn).length := by
    rw [List.length_flatMap, List.length_flatMap]
    refine List.sum_le_sum fun txin _ => ?_
    rw [length_serializeTxIn, serializeVarstr, List.length_append]
    omega
  have atTxouts : (tx.txouts.flatMap (·.script)).length ≤ (tx.txouts.flatMap serializeTxOut).length := by
    rw [List.length_flatMap, List.length_flatMap]
    refine List.sum_le_sum fun txout _ => ?_
    rw [serializeTxOut, serializeVarstr, List.length_append, List.length_append]
    omega
  simp only [serializeTx, serializeArray, serializeWitnesses, List.length_append]
  refine ⟨by omega, by omega, fun wits present => ?_⟩
  rw [present, Option.getD_some]
  omega

theorem getLegacySigops_ok {tx : Tx}
    (small : 20 * ((tx.txins.flatMap (·.sigScript)).length + (tx.txouts.flatMap (·.script)).length) < 2 ^ 32) :
    ∃ n, getLegacySigops tx = .ok n ∧
      n ≤ 20 * ((tx.txins.flatMap (·.sigScript)).length + (tx.txouts.flatMap (·.script)).length) := by
  have txins : (tx.txins.map (·.sigScript)).flatten = tx.txins.flatMap (·.sigScript) := rfl
  have txouts : (tx.txouts.map (·.script)).flatten = tx.txouts.flatMap (·.script) := rfl
  obtain ⟨first, atTxins, few⟩ := @sumSigops_ok 0 (tx.txins.map (·.sigScript)) (by rw [txins]; omega)
  obtain ⟨second, atTxouts, few'⟩ := @sumSigops_ok 0 (tx.txouts.map (·.script)) (by rw [txouts]; omega)
  rw [txins] at few
  rw [txouts] at few'
  refine ⟨first + second, ?_, by omega⟩
  rw [getLegacySigops, atTxins, Outcome.ok_bind, atTxouts, Outcome.ok_bind]
  exact Profile.add_of_lt (by omega)

/-- The cost of a transaction of at most two packets is returned when each input is counted. -/
theorem getTransactionSigopCost_of_complete {tx : Tx} (complete : tx.Complete)
    (short : (serializeTx tx).length ≤ 2 * maxPacketSize)
    (paired : tx.isCoinbase = false → dependencies.length = tx.txins.length) :
    (∃ cost, getTransactionSigopCost tx dependencies (scriptFlags tx) = .ok cost) ↔
      tx.isCoinbase = true ∨ ∀ wits, tx.witnessData = some wits →
        ∀ txin txout witness, (txin, txout, witness) ∈ tx.txins.zip (dependencies.zip wits) →
          ¬ Refuses txin txout witness := by
  rw [maxPacketSize] at short
  obtain ⟨atTxins, atTxouts, atWits⟩ := length_scripts_le tx
  obtain ⟨legacy, counted, few⟩ := @getLegacySigops_ok tx (by omega)
  rw [getTransactionSigopCost, counted, Outcome.ok_bind, Profile.mul_of_lt (by omega), Outcome.ok_bind]
  cases coinbase : tx.isCoinbase with
  | true =>
    rw [if_pos rfl]
    exact iff_of_true ⟨_, rfl⟩ (.inl rfl)
  | false =>
    have paired := paired coinbase
    obtain ⟨p2sh, counted, few'⟩ := @sumP2shSigops_ok 0 0 dependencies tx.txins (by omega) (by omega)
    have p2shFlag : scriptFlags tx &&& scriptVerifyP2sh ≠ 0 := by
      unfold scriptFlags
      split <;> decide
    rw [if_neg Bool.false_ne_true, if_pos p2shFlag, getP2shSigopCount, coinbase, if_neg Bool.false_ne_true, counted,
      Outcome.ok_bind, Profile.mul_of_lt (by omega), Outcome.ok_bind, Profile.add_of_lt (by omega), Outcome.ok_bind,
      or_iff_right Bool.false_ne_true]
    cases present : tx.witnessData with
    | none =>
      have noFlag : scriptFlags tx &&& scriptVerifyWitness = 0 := by
        rw [scriptFlags, present]
        decide
      rw [if_neg (not_not.mpr noFlag)]
      exact iff_of_true ⟨_, rfl⟩ fun wits absurd => by cases absurd
    | some wits =>
      have flag : scriptFlags tx &&& scriptVerifyWitness ≠ 0 := by
        rw [scriptFlags, present, Option.isSome_some]
        decide
      obtain ⟨length, decodes⟩ := complete.witnesses wits present
      have inTx := atWits wits present
      have stacked : ∀ w ∈ wits, ∃ stack, IsStack w stack := by
        intro w member
        have within := @length_le_flatMap_of_mem _ id wits w member
        rw [List.flatMap_id, id] at within
        exact exists_stack (decodes w member) (by omega)
      rw [if_pos flag, Option.isSome_some, if_pos rfl,
        addWitnessSigops_total flag stacked (by omega) (by omega) (by rw [List.drop_zero]; omega), List.drop_zero,
        List.drop_zero]
      simp only [Option.some.injEq, forall_eq']

/-- The cost of a parsed transaction is returned exactly if no input has a program that
cannot be counted. -/
theorem getTransactionSigopCost_total {sha256 : Bytes → Hash} {tx : Tx} {buffer : Bytes} {arena : Arena}
    {consumed read used : Nat} (short : buffer.length ≤ maxPacketSize)
    (accepted : deserializeTx (m := Parser) sha256 buffer arena consumed = .ok ((tx, read), used))
    (paired : tx.isCoinbase = false → dependencies.length = tx.txins.length) :
    (∃ cost, getTransactionSigopCost tx dependencies (scriptFlags tx) = .ok cost) ↔
      tx.isCoinbase = true ∨ ∀ wits, tx.witnessData = some wits →
        ∀ txin txout witness, (txin, txout, witness) ∈ tx.txins.zip (dependencies.zip wits) →
          ¬ Refuses txin txout witness := by
  obtain ⟨complete, bound⟩ := parsed_complete (short.trans_lt (by decide)) accepted
  exact getTransactionSigopCost_of_complete complete (bound.trans (Nat.mul_le_mul_left 2 short)) paired

set_option maxRecDepth 10000 in
theorem segwitTx_accepted :
    deserializeTx (m := Parser) (fun _ => emptyHash) (serializeTx segwitTx) megabyteArena 0 =
      .ok ((segwitTx, 64), 72) := by
  rfl

/-- An output to the hash of a key is counted. -/
theorem getTransactionSigopCost_total_key :
    (∃ cost, getTransactionSigopCost segwitTx [⟨50, keyProgram⟩] (scriptFlags segwitTx) = .ok cost) ↔
      segwitTx.isCoinbase = true ∨ ∀ wits, segwitTx.witnessData = some wits →
        ∀ txin txout witness, (txin, txout, witness) ∈ segwitTx.txins.zip ([⟨50, keyProgram⟩].zip wits) →
          ¬ Refuses txin txout witness :=
  getTransactionSigopCost_total (by decide) segwitTx_accepted fun _ => rfl

/-- The size of the program is a byte of 254. -/
theorem getTransactionSigopCost_panics :
    ¬ ∀ (sha256 : Bytes → Hash) (buffer : Bytes) (arena : Arena) (consumed read used : Nat) (tx : Tx)
      (dependencies : List TxOut),
      buffer.length ≤ maxPacketSize →
        deserializeTx (m := Parser) sha256 buffer arena consumed = .ok ((tx, read), used) →
          (tx.isCoinbase = false → dependencies.length = tx.txins.length) →
            ∃ cost, getTransactionSigopCost tx dependencies (scriptFlags tx) = .ok cost := by
  intro claim
  have returns := claim _ _ _ _ _ _ segwitTx [⟨50, [op1, 254, 0, 0]⟩] (by decide) segwitTx_accepted fun _ => rfl
  obtain ⟨complete, short⟩ := parsed_complete (by decide) segwitTx_accepted
  have counted := (getTransactionSigopCost_of_complete complete (by decide) fun _ => rfl).mp returns
  rcases counted with coinbase | counted
  · exact absurd coinbase (by decide)
  · have long : Overlong [op1, 254, 0, 0] := ⟨le_rfl, by decide, .inr ⟨le_rfl, by decide⟩, le_rfl⟩
    refine counted _ rfl _ _ _ List.mem_cons_self ⟨_, ?_, .inl long⟩
    rw [programScript, if_neg (by decide)]

end Bitlens

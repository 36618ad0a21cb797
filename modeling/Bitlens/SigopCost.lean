import Bitlens.ScriptOps
import Bitlens.VarstrArrays

namespace Bitlens
open Lib

/-! The cost of the signature operations, defined over the operations of the scripts. -/

namespace Sigops

/-- What an opcode counts behind another one. -/
def opCount (accurate : Bool) (last opcode : UInt8) : Nat :=
  if opcode = opChecksig ∨ opcode = opChecksigverify then 1
  else if opcode = opCheckmultisig ∨ opcode = opCheckmultisigverify then
    if accurate ∧ op1 ≤ last ∧ last ≤ op16 then last.toNat - 80 else 20
  else 0

/-- The opcodes of a script, each behind the one before it. -/
def countOpcodes (accurate : Bool) (last : UInt8) (opcodes : List UInt8) : Nat :=
  (List.zipWith (opCount accurate) (last :: opcodes) opcodes).sum

def count (accurate : Bool) (script : Bytes) : Nat :=
  countOpcodes accurate opInvalidopcode ((operations script).map Prod.fst)

def IsP2sh (script : Bytes) : Prop :=
  ∃ hash : Bytes, hash.length = 20 ∧ script = [opHash160, 20] ++ hash ++ [opEqual]

/-- Every operation of the script is a push, and none is cut off. -/
def PushOnly (script : Bytes) : Prop :=
  Whole script ∧ ∀ op ∈ operations script, op.1 ≤ op16

instance (script : Bytes) : Decidable (PushOnly script) :=
  inferInstanceAs (Decidable (none ∉ scriptOps script ∧ _))

/-- The data that the last operation pushes. -/
def pushed (script : Bytes) : Option Bytes :=
  (operations script).getLast?.bind Prod.snd

/-- The data that was pushed last, by whichever operation. -/
def lastPushed (script : Bytes) : Option Bytes :=
  ((operations script).filterMap Prod.snd).getLast?

/-- The script that an input of a P2SH output brings along. -/
def redeemScript (sigScript : Bytes) : Option Bytes :=
  if PushOnly sigScript then pushed sigScript else none

/-- What a script counts as a program of version 0, with a stack of witness items. -/
def programCount (stack : List Bytes) : Bytes → Nat
  | 0 :: length :: program =>
    if length = 20 ∧ program.length = 20 then 1
    else if length = 32 ∧ program.length = 32 then (stack.getLast?.map (count true)).getD 0
    else 0
  | _ => 0

end Sigops

open Sigops

theorem isPayToScriptHash_iff {script : Bytes} : isPayToScriptHash script = true ↔ IsP2sh script := by
  simp only [isPayToScriptHash, Bool.and_eq_true, decide_eq_true_eq]
  constructor
  · rintro ⟨⟨⟨length, first⟩, second⟩, last⟩
    obtain ⟨a, script, rfl⟩ := List.exists_cons_of_length_pos (show 0 < script.length by omega)
    rw [List.length_cons] at length
    obtain ⟨b, script, rfl⟩ := List.exists_cons_of_length_pos (show 0 < script.length by omega)
    rw [List.length_cons] at length
    cases first
    cases second
    refine ⟨script.take 20, by rw [List.length_take]; omega, ?_⟩
    have last : script[20]? = some opEqual := last
    have behind : script.drop 20 = [opEqual] := by
      obtain ⟨inBounds, value⟩ := List.getElem?_eq_some_iff.mp last
      rw [List.drop_eq_getElem_cons inBounds, value, List.drop_eq_nil_of_le (by omega)]
    change _ = opHash160 :: 20 :: (script.take 20 ++ [opEqual])
    rw [← behind, List.take_append_drop]
  · rintro ⟨hash, length, rfl⟩
    refine ⟨⟨⟨by simp [length], rfl⟩, rfl⟩, ?_⟩
    rw [List.getElem?_append_right (by simp [length])]
    simp [length]

instance (script : Bytes) : Decidable (IsP2sh script) :=
  decidable_of_iff _ isPayToScriptHash_iff

namespace Sigops

def p2shCount (txin : TxIn) (txout : TxOut) : Nat :=
  if IsP2sh txout.script then ((redeemScript txin.sigScript).map (count true)).getD 0 else 0

/-- A program is native, or the redeem script of a P2SH output. -/
def witnessCount (txin : TxIn) (txout : TxOut) (stack : List Bytes) : Nat :=
  if IsP2sh txout.script then ((redeemScript txin.sigScript).map (programCount stack)).getD 0
  else programCount stack txout.script

/-- The cost of a transaction that spends the outputs with the stacks of its inputs. -/
def cost (tx : Tx) (dependencies : List TxOut) (witnesses : List (List Bytes)) (flags : UInt32) : Nat :=
  4 * ((tx.txins.map fun txin => count false txin.sigScript).sum +
    (tx.txouts.map fun txout => count false txout.script).sum) +
  if tx.isCoinbase then 0
  else
    (if flags &&& scriptVerifyP2sh ≠ 0 then 4 * (List.zipWith p2shCount tx.txins dependencies).sum else 0) +
    (if flags &&& scriptVerifyWitness ≠ 0 then
      ((tx.txins.zip (dependencies.zip witnesses)).map fun (txin, txout, stack) => witnessCount txin txout stack).sum
    else 0)

/-- A program of version 0 that counts with the stack. -/
def Counts (stack : List Bytes) (script : Bytes) : Prop :=
  ∃ program : Bytes, script = [0, 20] ++ program ∧ program.length = 20 ∨
    script = [0, 32] ++ program ∧ program.length = 32 ∧ ∃ item, stack.getLast? = some item ∧ 0 < count true item

theorem programCount_pos {stack : List Bytes} {script : Bytes} : 0 < programCount stack script ↔ Counts stack script := by
  constructor
  · intro positive
    unfold programCount at positive
    split at positive
    · next length program =>
      split at positive
      · next short => exact ⟨program, .inl ⟨by rw [short.1]; rfl, short.2⟩⟩
      split at positive
      · next long =>
        refine ⟨program, .inr ⟨by rw [long.1]; rfl, long.2, ?_⟩⟩
        cases last : stack.getLast? with
        | none =>
          rw [last] at positive
          cases positive
        | some item =>
          rw [last] at positive
          exact ⟨item, rfl, positive⟩
      · cases positive
    · cases positive
  · rintro ⟨program, ⟨rfl, length⟩ | ⟨rfl, length, item, last, positive⟩⟩
    · change 0 < if 20 = 20 ∧ program.length = 20 then 1 else _
      rw [if_pos ⟨rfl, length⟩]
      exact Nat.one_pos
    · change 0 < if (32 : UInt8) = 20 ∧ program.length = 20 then 1 else if 32 = 32 ∧ program.length = 32 then _ else 0
      rw [if_neg (fun absurd => nomatch absurd.1), if_pos ⟨rfl, length⟩, last]
      exact positive

end Sigops

/-! The walkers of the code. -/

variable {script witness : Bytes} {accurate : Bool} {total n : Nat} {last : UInt8}

theorem countOpcodes_cons {opcode : UInt8} {opcodes : List UInt8} :
    countOpcodes accurate last (opcode :: opcodes) = opCount accurate last opcode + countOpcodes accurate opcode opcodes := by
  rw [countOpcodes, List.zipWith_cons_cons, List.sum_cons]
  rfl

theorem decodeOpN_eq_ok {opcode : UInt8} (atLeast : op1 ≤ opcode) (result : decodeOpN opcode = .ok n) :
    n = opcode.toNat - 80 := by
  have nonzero : opcode ≠ op0 := by
    rintro rfl
    exact absurd atLeast (by decide)
  rw [decodeOpN, if_neg nonzero] at result
  exact (Profile.dev_sub_eq_ok.mp result).2

/-- The loop adds the counts of the operations up to the first one that is cut off. -/
theorem countSigops_eq_ok {ops : List (Option ScriptOp)} (result : countSigops accurate ops total last = .ok n) :
    n = total + countOpcodes accurate last (((ops.takeWhile Option.isSome).filterMap id).map Prod.fst) := by
  induction ops generalizing total last with
  | nil => exact (Outcome.ok.inj result).symm
  | cons op ops ih =>
    cases op with
    | none => exact (Outcome.ok.inj result).symm
    | some op =>
      obtain ⟨opcode, operand⟩ := op
      rw [List.takeWhile_cons_of_pos rfl]
      change n = total + countOpcodes accurate last (opcode :: ((ops.takeWhile Option.isSome).filterMap id).map Prod.fst)
      rw [countOpcodes_cons, opCount]
      obtain ⟨next, step, result⟩ := Outcome.bind_eq_ok.mp result
      have later := ih result
      split at step
      · next single =>
        have sum := (Profile.dev_add_eq_ok.mp step).2
        rw [if_pos single]
        omega
      next single =>
      rw [if_neg single]
      split at step
      · next multiple =>
        rw [if_pos multiple]
        split at step
        · next keyed =>
          obtain ⟨keys, decoded, step⟩ := Outcome.bind_eq_ok.mp step
          have sum := (Profile.dev_add_eq_ok.mp step).2
          have value := decodeOpN_eq_ok keyed.2.1 decoded
          rw [if_pos keyed]
          omega
        · next unkeyed =>
          have sum := (Profile.dev_add_eq_ok.mp step).2
          rw [maxPubkeysPerMultisig] at sum
          rw [if_neg unkeyed]
          omega
      · next other =>
        have same := Outcome.ok.inj step
        rw [if_neg other]
        omega

theorem getSigopCount_eq_ok (result : getSigopCount script accurate = .ok n) : n = count accurate script := by
  have value := countSigops_eq_ok result
  rwa [Nat.zero_add] at value

theorem scriptOps_of_whole (whole : Whole script) : scriptOps script = (operations script).map some := by
  unfold Whole at whole
  unfold operations
  generalize scriptOps script = ops at whole
  induction ops with
  | nil => rfl
  | cons op ops ih =>
    rw [List.mem_cons, not_or] at whole
    cases op with
    | none => exact absurd rfl whole.1
    | some op =>
      rw [List.takeWhile_cons_of_pos rfl]
      exact congrArg (some op :: ·) (ih whole.2)

theorem isPushOnly_iff : isPushOnly script = true ↔ PushOnly script := by
  rw [isPushOnly, List.all_eq_true]
  constructor
  · intro all
    have whole : Whole script := fun cut => by cases all none cut
    refine ⟨whole, fun op member => ?_⟩
    rw [scriptOps_of_whole whole] at all
    have small := all (some op) (List.mem_map_of_mem member)
    simpa using small
  · rintro ⟨whole, small⟩ read member
    rw [scriptOps_of_whole whole] at member
    obtain ⟨op, inOps, rfl⟩ := List.mem_map.mp member
    have below := small op inOps
    simpa using below

/-- The loop over a script that only pushes ends with the operand of its last operation. -/
theorem lastOperand_eq {ops : List ScriptOp} {item : Option Bytes} :
    lastOperand (ops.map some) item =
      if ∀ op ∈ ops, op.1 ≤ op16 then some ((ops.getLast?.map Prod.snd).getD item) else none := by
  induction ops generalizing item with
  | nil => rw [if_pos fun _ absent => (List.not_mem_nil absent).elim]; rfl
  | cons op ops ih =>
    obtain ⟨opcode, operand⟩ := op
    rw [List.map_cons, lastOperand]
    by_cases large : opcode > op16
    · rw [if_pos large, if_neg]
      intro all
      exact absurd (all _ List.mem_cons_self) (not_le.mpr large)
    · rw [if_neg large, ih]
      by_cases rest : ∀ op ∈ ops, op.1 ≤ op16
      · have all : ∀ op ∈ (opcode, operand) :: ops, op.1 ≤ op16 := List.forall_mem_cons.mpr ⟨not_lt.mp large, rest⟩
        rw [if_pos rest, if_pos all, List.getLast?_cons]
        cases ops.getLast? <;> rfl
      · rw [if_neg rest, if_neg fun all => rest (List.forall_mem_cons.mp all).2]

theorem lastOperand_cut {ops : List (Option ScriptOp)} {item : Option Bytes} (cut : none ∈ ops) :
    lastOperand ops item = none := by
  induction ops generalizing item with
  | nil => cases cut
  | cons op ops ih =>
    cases op with
    | none => rfl
    | some op =>
      have rest := (List.mem_cons.mp cut).resolve_left fun absurd => nomatch absurd
      rw [lastOperand, ih rest, ite_self]

/-- The operand that `get_sigop_count2` counts is the redeem script. -/
theorem lastOperand_scriptOps : (lastOperand (scriptOps script) none).join = redeemScript script := by
  unfold redeemScript
  by_cases whole : Whole script
  · rw [scriptOps_of_whole whole, lastOperand_eq]
    by_cases small : ∀ op ∈ operations script, op.1 ≤ op16
    · rw [if_pos small, if_pos ⟨whole, small⟩, pushed]
      cases (operations script).getLast? <;> rfl
    · rw [if_neg small, if_neg fun only => small only.2]
      rfl
  · rw [lastOperand_cut (not_not.mp whole), if_neg fun only => whole only.1]
    rfl

theorem lastData_eq {ops : List ScriptOp} {item : Option Bytes} :
    lastData (ops.map some) item = (ops.filterMap Prod.snd).getLast?.or item := by
  induction ops generalizing item with
  | nil => rfl
  | cons op ops ih =>
    obtain ⟨opcode, operand⟩ := op
    cases operand with
    | none => exact ih
    | some data =>
      rw [List.map_cons, lastData, ih]
      change _ = (data :: ops.filterMap Prod.snd).getLast?.or item
      rw [List.getLast?_cons]
      cases (ops.filterMap Prod.snd).getLast? <;> rfl

theorem lastData_of_whole (whole : Whole script) : lastData (scriptOps script) none = lastPushed script := by
  rw [scriptOps_of_whole whole, lastData_eq, Option.or_none]
  rfl

/-! Programs. -/

/-- The iterator gives the last item of a stack. -/
theorem VarStrIter.last_eq {count offset stop : Nat} {items : List Bytes} {item : Option Bytes}
    (read : (deserializeItems deserializeVarstr witness count offset : Outcome (List Bytes × Nat)) = .ok (items, stop)) :
    VarStrIter.last witness count offset item = .ok (items.getLast?.or item) := by
  induction count generalizing offset items item with
  | zero =>
    cases read
    rfl
  | succ count ih =>
    obtain ⟨rest, behind, read⟩ := Outcome.bind_eq_ok.mp read
    obtain ⟨⟨value, consumed⟩, first, read⟩ := Outcome.bind_eq_ok.mp read
    obtain ⟨next, sum, read⟩ := Outcome.bind_eq_ok.mp read
    obtain ⟨⟨values, last⟩, later, read⟩ := Outcome.bind_eq_ok.mp read
    cases read
    have sum : Profile.dev.add 64 offset consumed = .ok next := sum
    rw [VarStrIter.last, behind, Outcome.ok_bind, first]
    dsimp only
    rw [sum, Outcome.ok_bind, ih later, List.getLast?_cons]
    cases values.getLast? <;> rfl

/-- What `witness_sigops` returns for a program of the given length. -/
theorem witnessSigops_eq_ok {program : Bytes} {stack : List Bytes} {version : Nat} (stacked : IsStack witness stack)
    (result : witnessSigops version program witness = .ok n) :
    n = if version = 0 then
      if program.length = 20 then 1
      else if program.length = 32 then (stack.getLast?.map (count true)).getD 0 else 0
    else 0 := by
  unfold witnessSigops witnessV0KeyhashSize witnessV0ScripthashSize at result
  split at result
  · next zero =>
    rw [if_pos zero]
    split at result
    · next short =>
      rw [if_pos short]
      exact (Outcome.ok.inj result).symm
    next short =>
    rw [if_neg short]
    obtain ⟨number, start, varint, items⟩ := stacked
    split at result
    · next long =>
      rw [if_pos long.1]
      rw [varint] at result
      change (VarStrIter.last witness number.toNat start none >>= _) = _ at result
      obtain ⟨item, found, result⟩ := Outcome.bind_eq_ok.mp result
      rw [VarStrIter.last_eq items, Option.or_none] at found
      cases found
      obtain ⟨subscript, present, result⟩ := Outcome.bind_eq_ok.mp result
      rw [Outcome.unwrap_eq_ok.mp present]
      exact getSigopCount_eq_ok result
    · next other =>
      have same := Outcome.ok.inj result
      rw [← same]
      split
      · next long =>
        -- the stack is empty
        have zero : number = 0 := by
          cases witness with
          | nil => cases varint
          | cons leader rest =>
            by_cases first : leader = 0
            · subst first
              exact (Prod.mk.inj (Outcome.ok.inj varint)).1.symm
            · refine absurd ⟨long, List.cons_ne_nil _ _, fun head => first ?_⟩ other
              exact Option.some.inj head
        rw [zero] at items
        cases items
        rfl
      · rfl
  · next other =>
    rw [if_neg other]
    exact (Outcome.ok.inj result).symm

theorem programCount_cons {stack : List Bytes} {version length : UInt8} {program : Bytes} :
    programCount stack (version :: length :: program) =
      if version = 0 then
        if length = 20 ∧ program.length = 20 then 1
        else if length = 32 ∧ program.length = 32 then (stack.getLast?.map (count true)).getD 0
        else 0
      else 0 := by
  by_cases zero : version = 0
  · subst zero
    rfl
  · rw [if_neg zero, programCount]
    intro _ _ same
    exact zero (List.cons.inj same).1

/-- A program is found where the second byte is its length. -/
theorem getWitnessProgram_eq_ok {version length : UInt8} {program : Bytes} {wp : Option (Nat × Bytes)}
    (result : getWitnessProgram (version :: length :: program) = .ok wp) :
    (wp = none ∧ (version = 0 → ¬ (2 ≤ program.length ∧ program.length ≤ 40 ∧ length.toNat = program.length))) ∨
      ∃ number, wp = some (number, program) ∧ (number = 0 ↔ version = 0) ∧ length.toNat = program.length := by
  rw [getWitnessProgram] at result
  split at result
  · next outside =>
    refine .inl ⟨(Outcome.ok.inj result).symm, fun _ inside => ?_⟩
    omega
  split at result
  · next other => exact .inl ⟨(Outcome.ok.inj result).symm, fun zero => absurd zero other.1⟩
  next known =>
  obtain ⟨size, sum, result⟩ := Outcome.bind_eq_ok.mp result
  obtain ⟨_, rfl⟩ := Profile.dev_add_eq_ok.mp sum
  split at result
  · next same =>
    obtain ⟨number, decoded, result⟩ := Outcome.bind_eq_ok.mp result
    refine .inr ⟨number, (Outcome.ok.inj result).symm, ?_, by omega⟩
    by_cases zero : version = op0
    · rw [decodeOpN, if_pos zero] at decoded
      exact iff_of_true (Outcome.ok.inj decoded).symm zero
    · refine iff_of_false ?_ zero
      have atLeast : op1 ≤ version := not_lt.mp fun below => known ⟨zero, .inl below⟩
      have value := decodeOpN_eq_ok atLeast decoded
      have bound : 81 ≤ version.toNat := UInt8.le_iff_toNat_le.mp atLeast
      omega
  · next different =>
    refine .inl ⟨(Outcome.ok.inj result).symm, fun _ inside => different ?_⟩
    omega

/-- The two steps from a script to the count of its program. -/
theorem programSigops_eq_ok {stack : List Bytes} {wp : Option (Nat × Bytes)} (stacked : IsStack witness stack)
    (found : getWitnessProgram script = .ok wp) :
    (wp = none → programCount stack script = 0) ∧
      ∀ version program, wp = some (version, program) → witnessSigops version program witness = .ok n →
        n = programCount stack script := by
  cases script with
  | nil =>
    cases found
    exact ⟨fun _ => rfl, fun _ _ absurd => nomatch absurd⟩
  | cons version script =>
    cases script with
    | nil =>
      cases found
      refine ⟨fun _ => ?_, fun _ _ absurd => nomatch absurd⟩
      rw [programCount]
      intro _ _ absurd
      cases absurd
    | cons length program =>
      rw [programCount_cons]
      rcases getWitnessProgram_eq_ok found with ⟨rfl, none⟩ | ⟨number, rfl, zero, size⟩
      · refine ⟨fun _ => ?_, fun _ _ absurd => nomatch absurd⟩
        by_cases zero : version = 0
        · have not20 : ¬ (length = 20 ∧ program.length = 20) := by
            rintro ⟨rfl, length⟩
            exact none zero ⟨by omega, by omega, length.symm⟩
          have not32 : ¬ (length = 32 ∧ program.length = 32) := by
            rintro ⟨rfl, length⟩
            exact none zero ⟨by omega, by omega, length.symm⟩
          rw [if_pos zero, if_neg not20, if_neg not32]
        · rw [if_neg zero]
      · refine ⟨fun absurd => (nomatch absurd), fun version' program' same result => ?_⟩
        cases same
        rw [witnessSigops_eq_ok stacked result]
        have at20 : (length = 20 ∧ program.length = 20) ↔ program.length = 20 :=
          and_iff_right_of_imp fun short => UInt8.toNat_inj.mp (size.trans short)
        have at32 : (length = 32 ∧ program.length = 32) ↔ program.length = 32 :=
          and_iff_right_of_imp fun long => UInt8.toNat_inj.mp (size.trans long)
        simp only [zero, at20, at32]

namespace Sigops

/-- The input of a P2SH output whose last operation pushes no data, behind one that
pushed a program. -/
def Stale (txin : TxIn) (txout : TxOut) (stack : List Bytes) : Prop :=
  IsP2sh txout.script ∧ PushOnly txin.sigScript ∧ pushed txin.sigScript = none ∧
    ∃ data, lastPushed txin.sigScript = some data ∧ Counts stack data

/-- What the code counts for such an input. -/
def excess (txin : TxIn) (txout : TxOut) (stack : List Bytes) : Nat :=
  if IsP2sh txout.script ∧ PushOnly txin.sigScript ∧ pushed txin.sigScript = none then
    ((lastPushed txin.sigScript).map (programCount stack)).getD 0
  else 0

theorem excess_pos {txin : TxIn} {txout : TxOut} {stack : List Bytes} :
    0 < excess txin txout stack ↔ Stale txin txout stack := by
  unfold excess Stale
  split
  · next stale =>
    obtain ⟨p2sh, only, none⟩ := stale
    cases last : lastPushed txin.sigScript with
    | none =>
      refine iff_of_false (Nat.lt_irrefl 0) ?_
      rintro ⟨_, _, _, data, absurd, _⟩
      cases absurd
    | some data =>
      constructor
      · exact fun positive => ⟨p2sh, only, none, data, rfl, programCount_pos.mp positive⟩
      · rintro ⟨_, _, _, data', same, counts⟩
        cases same
        exact programCount_pos.mpr counts
  · next fresh => exact iff_of_false (Nat.lt_irrefl 0) fun stale => fresh ⟨stale.1, stale.2.1, stale.2.2.1⟩

theorem lastPushed_of_pushed {script data : Bytes} (found : pushed script = some data) : lastPushed script = some data := by
  unfold pushed at found
  obtain ⟨op, last, same⟩ := Option.bind_eq_some_iff.mp found
  obtain ⟨front, split⟩ := List.getLast?_eq_some_iff.mp last
  rw [lastPushed, split, List.filterMap_append, List.filterMap_cons, same]
  exact List.getLast?_concat

end Sigops

theorem getWitnessProgram_of_p2sh (p2sh : IsP2sh script) : getWitnessProgram script = .ok none := by
  obtain ⟨hash, length, rfl⟩ := p2sh
  change getWitnessProgram (opHash160 :: 20 :: (hash ++ [opEqual])) = .ok none
  rw [getWitnessProgram, if_neg, if_pos (by decide)]
  rw [List.length_append, length]
  decide

section Inputs

variable {txin : TxIn} {txout : TxOut} {stack : List Bytes} {flags : UInt32} {dependencies : List TxOut}

/-- An input counts what it should, and a program that an earlier operation left behind. -/
theorem countWitnessSigops_eq_ok (flag : flags &&& scriptVerifyWitness ≠ 0) (stacked : IsStack witness stack)
    (result : countWitnessSigops txin.sigScript txout.script witness flags = .ok n) :
    n = witnessCount txin txout stack + excess txin txout stack := by
  rw [countWitnessSigops, if_neg flag] at result
  obtain ⟨wp, program, result⟩ := Outcome.bind_eq_ok.mp result
  obtain ⟨silent, counts⟩ := @programSigops_eq_ok txout.script witness n stack wp stacked program
  by_cases p2sh : IsP2sh txout.script
  · cases (getWitnessProgram_of_p2sh p2sh).symm.trans program
    dsimp only at result
    rw [isPayToScriptHash_iff.mpr p2sh, Bool.true_and] at result
    rw [witnessCount, if_pos p2sh, redeemScript, excess]
    by_cases only : PushOnly txin.sigScript
    · rw [isPushOnly_iff.mpr only, if_pos rfl, lastData_of_whole only.1] at result
      rw [if_pos only]
      cases last : lastPushed txin.sigScript with
      | none =>
        have none : pushed txin.sigScript = none := by
          cases found : pushed txin.sigScript with
          | none => rfl
          | some data => cases last.symm.trans (lastPushed_of_pushed found)
        rw [last] at result
        rw [none, if_pos ⟨p2sh, only, rfl⟩]
        exact (Outcome.ok.inj result).symm
      | some data =>
        rw [last] at result
        obtain ⟨wp, program, result⟩ := Outcome.bind_eq_ok.mp result
        obtain ⟨silent, counts⟩ := @programSigops_eq_ok data witness n stack wp stacked program
        have value : n = programCount stack data := by
          cases wp with
          | none => exact (Outcome.ok.inj result).symm.trans (silent rfl).symm
          | some found => exact counts _ _ rfl result
        cases found : pushed txin.sigScript with
        | none =>
          rw [if_pos ⟨p2sh, only, rfl⟩, value]
          exact (Nat.zero_add _).symm
        | some data' =>
          cases last.symm.trans (lastPushed_of_pushed found)
          rw [if_neg (fun stale => by cases stale.2.2), value]
          rfl
    · rw [Bool.eq_false_iff.mpr fun walked => only (isPushOnly_iff.mp walked), if_neg Bool.false_ne_true] at result
      rw [if_neg only, if_neg fun stale => only stale.2.1]
      exact (Outcome.ok.inj result).symm
  · rw [witnessCount, if_neg p2sh, excess, if_neg fun stale => p2sh stale.1]
    cases wp with
    | none =>
      dsimp only at result
      rw [Bool.eq_false_iff.mpr fun walked => p2sh (isPayToScriptHash_iff.mp walked), Bool.false_and,
        if_neg Bool.false_ne_true] at result
      rw [silent rfl]
      exact (Outcome.ok.inj result).symm
    | some found => exact counts _ _ rfl result

theorem getSigopCount2_eq_ok (p2sh : IsP2sh txout.script)
    (result : getSigopCount2 txout.script txin.sigScript = .ok n) : n = p2shCount txin txout := by
  rw [getSigopCount2, isPayToScriptHash_iff.mpr p2sh, Bool.not_true, if_neg Bool.false_ne_true] at result
  rw [p2shCount, if_pos p2sh, ← lastOperand_scriptOps]
  split at result
  · next v found =>
    rw [found]
    exact getSigopCount_eq_ok result
  · next found =>
    rw [found]
    exact (Outcome.ok.inj result).symm
  · next found =>
    rw [found]
    exact (Outcome.ok.inj result).symm

theorem sumSigops_eq_ok {scripts : List Bytes} (result : sumSigops scripts total = .ok n) :
    n = total + (scripts.map (count false)).sum := by
  induction scripts generalizing total with
  | nil => exact (Outcome.ok.inj result).symm
  | cons script scripts ih =>
    obtain ⟨number, first, result⟩ := Outcome.bind_eq_ok.mp result
    obtain ⟨next, sum, result⟩ := Outcome.bind_eq_ok.mp result
    obtain ⟨_, rfl⟩ := Profile.dev_add_eq_ok.mp sum
    rw [ih result, getSigopCount_eq_ok first, List.map_cons, List.sum_cons, Nat.add_assoc]

theorem drop_of_getElem? {α : Type} {xs : List α} {i : Nat} {x : α} (found : xs[i]? = some x) :
    xs.drop i = x :: xs.drop (i + 1) := by
  obtain ⟨inBounds, value⟩ := List.getElem?_eq_some_iff.mp found
  rw [List.drop_eq_getElem_cons inBounds, value]

theorem sumP2shSigops_eq_ok {txins : List TxIn} {i : Nat} (result : sumP2shSigops dependencies txins i total = .ok n) :
    n = total + (List.zipWith p2shCount txins (dependencies.drop i)).sum := by
  induction txins generalizing i total with
  | nil => exact (Outcome.ok.inj result).symm
  | cons txin txins ih =>
    obtain ⟨txout, found, result⟩ := Outcome.bind_eq_ok.mp result
    obtain ⟨next, step, result⟩ := Outcome.bind_eq_ok.mp result
    have value : next = total + p2shCount txin txout := by
      split at step
      · next walked =>
        obtain ⟨number, counted, sum⟩ := Outcome.bind_eq_ok.mp step
        rw [(Profile.dev_add_eq_ok.mp sum).2, getSigopCount2_eq_ok (isPayToScriptHash_iff.mp walked) counted]
      · next walked =>
        rw [p2shCount, if_neg fun p2sh => walked (isPayToScriptHash_iff.mpr p2sh)]
        exact (Outcome.ok.inj step).symm
    rw [ih result, value, drop_of_getElem? (Outcome.unwrap_eq_ok.mp found), List.zipWith_cons_cons, List.sum_cons,
      Nat.add_assoc]

/-- The loop adds what the inputs count and what it counts on top. -/
theorem addWitnessSigops_eq_ok {wits : List Bytes} {witnesses : List (List Bytes)} {txins : List TxIn} {i : Nat}
    (flag : flags &&& scriptVerifyWitness ≠ 0) (stacked : List.Forall₂ IsStack wits witnesses)
    (result : addWitnessSigops dependencies (some wits) flags txins i total = .ok n) :
    n = total + ((txins.zip ((dependencies.drop i).zip (witnesses.drop i))).map fun (txin, txout, stack) =>
        witnessCount txin txout stack).sum +
      ((txins.zip ((dependencies.drop i).zip (witnesses.drop i))).map fun (txin, txout, stack) =>
        excess txin txout stack).sum := by
  induction txins generalizing i total with
  | nil => exact (Outcome.ok.inj result).symm
  | cons txin txins ih =>
    obtain ⟨txout, found, result⟩ := Outcome.bind_eq_ok.mp result
    obtain ⟨wd, same, result⟩ := Outcome.bind_eq_ok.mp result
    cases same
    obtain ⟨witness, inWits, result⟩ := Outcome.bind_eq_ok.mp result
    obtain ⟨number, counted, result⟩ := Outcome.bind_eq_ok.mp result
    obtain ⟨next, sum, result⟩ := Outcome.bind_eq_ok.mp result
    obtain ⟨_, rfl⟩ := Profile.dev_add_eq_ok.mp sum
    obtain ⟨stack, inWitnesses, stack'⟩ : ∃ stack, witnesses[i]? = some stack ∧ IsStack witness stack := by
      obtain ⟨inBounds, value⟩ := List.getElem?_eq_some_iff.mp (Outcome.unwrap_eq_ok.mp inWits)
      have inBounds' : i < witnesses.length := by rw [← stacked.length_eq]; exact inBounds
      refine ⟨witnesses[i], List.getElem?_eq_getElem inBounds', ?_⟩
      rw [← value]
      exact List.forall₂_iff_get.mp stacked |>.2 i inBounds inBounds'
    have value := countWitnessSigops_eq_ok flag stack' counted
    rw [ih result, drop_of_getElem? (Outcome.unwrap_eq_ok.mp found), drop_of_getElem? inWitnesses, List.zip_cons_cons,
      List.zip_cons_cons, List.map_cons, List.map_cons, List.sum_cons, List.sum_cons]
    dsimp only
    omega

end Inputs

theorem getLegacySigops_eq_ok {tx : Tx} (result : getLegacySigops tx = .ok n) :
    n = (tx.txins.map fun txin => count false txin.sigScript).sum + (tx.txouts.map fun txout => count false txout.script).sum := by
  obtain ⟨first, txins, result⟩ := Outcome.bind_eq_ok.mp result
  obtain ⟨second, txouts, result⟩ := Outcome.bind_eq_ok.mp result
  have atTxins := sumSigops_eq_ok txins
  have atTxouts := sumSigops_eq_ok txouts
  rw [List.map_map, Nat.zero_add] at atTxins atTxouts
  rw [(Profile.dev_add_eq_ok.mp result).2, atTxins, atTxouts]
  rfl

/-- The cost that the code returns is the defined one and the excess of its inputs. -/
theorem getTransactionSigopCost_eq_ok {tx : Tx} {dependencies : List TxOut} {flags : UInt32}
    {witnesses : List (List Bytes)}
    (stacked : ∀ wits, tx.witnessData = some wits → List.Forall₂ IsStack wits witnesses)
    (returns : getTransactionSigopCost tx dependencies flags = .ok n) :
    n = Sigops.cost tx dependencies witnesses flags +
      if tx.isCoinbase = true ∨ flags &&& scriptVerifyWitness = 0 then 0
      else ((tx.txins.zip (dependencies.zip witnesses)).map fun (txin, txout, stack) => excess txin txout stack).sum := by
  obtain ⟨legacy, counted, returns⟩ := Outcome.bind_eq_ok.mp returns
  obtain ⟨sigops, product, returns⟩ := Outcome.bind_eq_ok.mp returns
  have base : sigops = 4 * legacy := (Profile.dev_mul_eq_ok.mp product).2
  have legacyValue := getLegacySigops_eq_ok counted
  rw [Sigops.cost, ← legacyValue, ← base]
  by_cases coinbase : tx.isCoinbase = true
  · rw [if_pos coinbase] at returns
    rw [if_pos coinbase, if_pos (.inl coinbase)]
    exact (Outcome.ok.inj returns).symm
  rw [if_neg coinbase] at returns ⊢
  obtain ⟨spent, step, returns⟩ := Outcome.bind_eq_ok.mp returns
  have atP2sh : spent = sigops + if flags &&& scriptVerifyP2sh ≠ 0 then
      4 * (List.zipWith p2shCount tx.txins dependencies).sum else 0 := by
    split at step
    · next flag =>
      obtain ⟨number, p2sh, step⟩ := Outcome.bind_eq_ok.mp step
      obtain ⟨cost, product, sum⟩ := Outcome.bind_eq_ok.mp step
      rw [getP2shSigopCount, if_neg coinbase] at p2sh
      have value := sumP2shSigops_eq_ok p2sh
      rw [Nat.zero_add, List.drop_zero] at value
      rw [if_pos flag, (Profile.dev_add_eq_ok.mp sum).2, (Profile.dev_mul_eq_ok.mp product).2, value]
    · next flag =>
      rw [if_neg flag]
      exact (Outcome.ok.inj step).symm
  by_cases flag : flags &&& scriptVerifyWitness = 0
  · rw [if_neg (not_not.mpr flag)] at returns
    rw [if_neg (not_not.mpr flag), if_pos (show tx.isCoinbase = true ∨ _ from .inr flag)]
    have same := Outcome.ok.inj returns
    omega
  · rw [if_pos flag] at returns
    rw [if_pos flag, if_neg (not_or.mpr ⟨coinbase, flag⟩)]
    cases present : tx.witnessData with
    | none =>
      rw [present] at returns
      cases returns
    | some wits =>
      rw [present, Option.isSome_some, if_pos rfl] at returns
      have value := addWitnessSigops_eq_ok flag (stacked wits present) returns
      rw [List.drop_zero, List.drop_zero] at value
      omega

/-- The code returns the cost exactly if no nested program is left behind by an
operation without data. -/
theorem getTransactionSigopCost_iff {tx : Tx} {dependencies : List TxOut} {flags : UInt32} {cost : Nat}
    {witnesses : List (List Bytes)}
    (stacked : ∀ wits, tx.witnessData = some wits → List.Forall₂ IsStack wits witnesses)
    (returns : getTransactionSigopCost tx dependencies flags = .ok cost) :
    cost = Sigops.cost tx dependencies witnesses flags ↔
      tx.isCoinbase = true ∨ flags &&& scriptVerifyWitness = 0 ∨
        ∀ txin txout stack, (txin, txout, stack) ∈ tx.txins.zip (dependencies.zip witnesses) → ¬ Stale txin txout stack := by
  rw [getTransactionSigopCost_eq_ok stacked returns, Nat.add_eq_left, ← or_assoc]
  by_cases unchecked : tx.isCoinbase = true ∨ flags &&& scriptVerifyWitness = 0
  · rw [if_pos unchecked]
    exact iff_of_true rfl (.inl unchecked)
  · rw [if_neg unchecked, or_iff_right unchecked, List.sum_eq_zero_iff_forall_eq_nat, List.forall_mem_map]
    constructor
    · intro none txin txout stack member stale
      exact absurd (none _ member) (Nat.ne_of_gt (excess_pos.mpr stale))
    · intro fresh input member
      exact Nat.eq_zero_of_not_pos fun positive => fresh _ _ _ member (excess_pos.mp positive)

/-! Two transactions with one input and an empty witness. -/

def spendingTx (sigScript : Bytes) : Tx :=
  ⟨2, 0, [⟨emptyHash, 0, 0, sigScript⟩], [], some [[0]], emptyHash, emptyHash⟩

/-- A program of version 0 for the hash of a key. -/
def keyProgram : Bytes := [0, 20] ++ List.replicate 20 7

/-- The program is pushed, and a number behind it. -/
def staleScript : Bytes := [22] ++ keyProgram ++ [op1]

def p2shOutput : TxOut := ⟨50, [opHash160, 20] ++ List.replicate 20 7 ++ [opEqual]⟩

theorem spendingTx_stacked (sigScript : Bytes) :
    ∀ wits, (spendingTx sigScript).witnessData = some wits → List.Forall₂ IsStack wits [[]] := by
  intro wits present
  cases present
  exact .cons ⟨0, 1, rfl, rfl⟩ .nil

theorem scriptOps_stale : scriptOps staleScript = [some (22, some keyProgram), some (op1, none)] := by
  have first : getScriptOp staleScript = (some (22, some keyProgram), [op1]) := rfl
  have second : getScriptOp [op1] = (some (op1, none), []) := rfl
  rw [scriptOps_cons first, scriptOps_cons second, scriptOps]

theorem getTransactionSigopCost_iff_key :
    1 = Sigops.cost (spendingTx []) [⟨50, keyProgram⟩] [[]] 0x801 ↔
      (spendingTx []).isCoinbase = true ∨ (0x801 : UInt32) &&& scriptVerifyWitness = 0 ∨
        ∀ txin txout stack, (txin, txout, stack) ∈ (spendingTx []).txins.zip ([⟨50, keyProgram⟩].zip [[]]) →
          ¬ Stale txin txout stack := by
  have none : scriptOps [] = [] := by rw [scriptOps]
  have count : getSigopCount [] false = .ok 0 := by
    rw [getSigopCount, none]
    rfl
  have legacy : getLegacySigops (spendingTx []) = .ok 0 := by
    change (getSigopCount [] false >>= _) >>= _ = _
    rw [count]
    rfl
  refine getTransactionSigopCost_iff (spendingTx_stacked []) ?_
  rw [getTransactionSigopCost, legacy]
  rfl

theorem getTransactionSigopCost_stale : getTransactionSigopCost (spendingTx staleScript) [p2shOutput] 0x801 = .ok 1 := by
  have count : getSigopCount staleScript false = .ok 0 := by
    rw [getSigopCount, scriptOps_stale]
    rfl
  have legacy : getLegacySigops (spendingTx staleScript) = .ok 0 := by
    change (getSigopCount staleScript false >>= _) >>= _ = _
    rw [count]
    rfl
  have redeemed : getSigopCount2 p2shOutput.script staleScript = .ok 0 := by
    rw [getSigopCount2, scriptOps_stale]
    rfl
  have pushes : isPushOnly staleScript = true := by
    rw [isPushOnly, scriptOps_stale]
    rfl
  have nested : countWitnessSigops staleScript p2shOutput.script [0] 0x801 = .ok 1 := by
    rw [countWitnessSigops, if_neg (by decide), show getWitnessProgram p2shOutput.script = .ok none from rfl,
      Outcome.ok_bind]
    dsimp only
    rw [pushes, scriptOps_stale]
    rfl
  have p2sh : getP2shSigopCount (spendingTx staleScript) [p2shOutput] = .ok 0 := by
    change (getSigopCount2 p2shOutput.script staleScript >>= fun count => Profile.dev.add 32 0 count) >>= _ = _
    rw [redeemed]
    rfl
  have witness : addWitnessSigops [p2shOutput] (some [[0]]) 0x801 (spendingTx staleScript).txins 0 0 = .ok 1 := by
    change countWitnessSigops staleScript p2shOutput.script [0] 0x801 >>= _ = _
    rw [nested]
    rfl
  rw [getTransactionSigopCost, legacy, p2sh]
  exact witness

/-- The last operation pushes no data, so there is no nested program; the code counts the
one that was pushed before. -/
theorem getTransactionSigopCost_fails :
    ¬ ∀ (tx : Tx) (dependencies : List TxOut) (flags : UInt32) (cost : Nat) (witnesses : List (List Bytes)),
      (∀ wits, tx.witnessData = some wits → wits = witnesses.map (serializeArray serializeVarstr)) →
        (tx.isCoinbase = true ∨ dependencies.length = tx.txins.length) →
          getTransactionSigopCost tx dependencies flags = .ok cost →
            cost = Sigops.cost tx dependencies witnesses flags := by
  intro claim
  have canonical : ∀ wits, (spendingTx staleScript).witnessData = some wits →
      wits = [[]].map (serializeArray serializeVarstr) := by
    intro wits present
    cases present
    rfl
  have same := claim _ _ _ _ _ canonical (.inr rfl) getTransactionSigopCost_stale
  have ops : operations staleScript = [(22, some keyProgram), (op1, none)] := by
    rw [operations, scriptOps_stale]
    rfl
  have p2sh : IsP2sh p2shOutput.script := ⟨List.replicate 20 7, rfl, rfl⟩
  have only : PushOnly staleScript := by
    rw [PushOnly, Whole, scriptOps_stale, ops]
    decide
  have stale : Stale ⟨emptyHash, 0, 0, staleScript⟩ p2shOutput [] := by
    refine ⟨p2sh, only, ?_, keyProgram, ?_, List.replicate 20 7, .inl ⟨rfl, rfl⟩⟩
    · rw [pushed, ops]
      rfl
    · rw [lastPushed, ops]
      rfl
  have positive := excess_pos.mpr stale
  have value := getTransactionSigopCost_eq_ok (spendingTx_stacked staleScript) getTransactionSigopCost_stale
  rw [if_neg (by decide)] at value
  change 1 = _ + (excess ⟨emptyHash, 0, 0, staleScript⟩ p2shOutput [] + 0) at value
  omega

end Bitlens

import Bitlens.BlockStore

namespace Bitlens
open Lib

def op0 : UInt8 := 0x00
def opPushdata1 : UInt8 := 0x4c
def opPushdata2 : UInt8 := 0x4d
def opPushdata4 : UInt8 := 0x4e
def op1 : UInt8 := 0x51
def op16 : UInt8 := 0x60
def opReturn : UInt8 := 0x6a
def opDup : UInt8 := 0x76
def opEqual : UInt8 := 0x87
def opEqualverify : UInt8 := 0x88
def opHash160 : UInt8 := 0xa9
def opChecksig : UInt8 := 0xac
def opChecksigverify : UInt8 := 0xad
def opCheckmultisig : UInt8 := 0xae
def opCheckmultisigverify : UInt8 := 0xaf
def opInvalidopcode : UInt8 := 0xff

/-! Flags and sizes. -/

def scriptVerifyP2sh : UInt32 := 1
def scriptVerifyWitness : UInt32 := 0x800

def maxPubkeysPerMultisig : Nat := 20
def witnessV0ScripthashSize : Nat := 32
def witnessV0KeyhashSize : Nat := 20

/-! Scripts are read operation by operation. -/

/-- An opcode with the data that it pushes. -/
abbrev ScriptOp := UInt8 × Option Bytes

/-- The size of the operand, and the script behind it. -/
def operandSize (opcode : UInt8) (script : Bytes) : Option (Nat × Bytes) :=
  if opcode < opPushdata1 then some (opcode.toNat, script)
  else if opcode = opPushdata1 then
    if script.length < 1 then none else some (leNat (script.take 1), script.drop 1)
  else if opcode = opPushdata2 then
    if script.length < 2 then none else some (leNat (script.take 2), script.drop 2)
  else if opcode = opPushdata4 then
    if script.length < 4 then none else some (leNat (script.take 4), script.drop 4)
  else some (0, script)

/-- `get_script_op`: the operation, if it is not cut off, and what is left of the script. -/
def getScriptOp : Bytes → Option ScriptOp × Bytes
  | [] => (none, [])
  | opcode :: script =>
    if opcode ≤ opPushdata4 then
      match operandSize opcode script with
      | none => (none, script)
      | some (nsize, script) =>
        if script.length < nsize then (none, script)
        else (some (opcode, some (script.take nsize)), script.drop nsize)
    else (some (opcode, none), script)

theorem length_readSize {width : Nat} {script rest : Bytes} {nsize : Nat}
    (found : (if script.length < width then none else some (leNat (script.take width), script.drop width)) =
      some (nsize, rest)) : rest.length ≤ script.length := by
  obtain ⟨_, shape⟩ := Option.ite_none_left_eq_some.mp found
  cases shape
  rw [List.length_drop]
  exact Nat.sub_le _ _

theorem length_operandSize {opcode : UInt8} {script rest : Bytes} {nsize : Nat}
    (found : operandSize opcode script = some (nsize, rest)) : rest.length ≤ script.length := by
  unfold operandSize at found
  split at found
  · cases found
    exact le_rfl
  split at found
  · exact length_readSize found
  split at found
  · exact length_readSize found
  split at found
  · exact length_readSize found
  · cases found
    exact le_rfl

theorem length_getScriptOp (opcode : UInt8) (script : Bytes) :
    (getScriptOp (opcode :: script)).2.length ≤ script.length := by
  rw [getScriptOp]
  split
  · split
    · exact le_rfl
    · next found =>
      have behind := length_operandSize found
      split
      · exact behind
      · rw [List.length_drop]
        omega
  · exact le_rfl

/-- What a loop that calls `get_script_op` until the script is empty gets from it. -/
def scriptOps : Bytes → List (Option ScriptOp)
  | [] => []
  | opcode :: script =>
    (getScriptOp (opcode :: script)).1 :: scriptOps (getScriptOp (opcode :: script)).2
termination_by script => script.length
decreasing_by
  have shorter := length_getScriptOp opcode script
  rw [List.length_cons]
  omega

/-! The walkers. -/

def decodeOpN (opcode : UInt8) : Outcome Nat :=
  if opcode = op0 then .ok 0 else Profile.dev.sub 8 opcode.toNat (op1.toNat - 1)

/-- The loop of `get_sigop_count`. -/
def countSigops (accurate : Bool) : List (Option ScriptOp) → Nat → UInt8 → Outcome Nat
  | [], total, _ => .ok total
  | none :: _, total, _ => .ok total
  | some (opcode, _) :: rest, total, lastOpcode => do
    let total ← (
      if opcode = opChecksig ∨ opcode = opChecksigverify then Profile.dev.add 32 total 1
      else if opcode = opCheckmultisig ∨ opcode = opCheckmultisigverify then
        if accurate ∧ op1 ≤ lastOpcode ∧ lastOpcode ≤ op16 then do
          let keys ← decodeOpN lastOpcode
          Profile.dev.add 32 total keys
        else Profile.dev.add 32 total maxPubkeysPerMultisig
      else .ok total : Outcome Nat)
    countSigops accurate rest total opcode

def getSigopCount (script : Bytes) (accurate : Bool) : Outcome Nat :=
  countSigops accurate (scriptOps script) 0 opInvalidopcode

def isPayToScriptHash (script : Bytes) : Bool :=
  script.length = 23 && script[0]? = some opHash160 && script[1]? = some 0x14 && script[22]? = some opEqual

def isPushOnly (script : Bytes) : Bool :=
  (scriptOps script).all fun
    | some (opcode, _) => !decide (opcode > op16)
    | none => false

/-- The loop of `get_sigop_count2`: the operand of the last operation, or an early return. -/
def lastOperand : List (Option ScriptOp) → Option Bytes → Option (Option Bytes)
  | [], last => some last
  | some (opcode, operand) :: rest, _ => if opcode > op16 then none else lastOperand rest operand
  | none :: _, _ => none

def getSigopCount2 (scriptPubKey scriptSig : Bytes) : Outcome Nat :=
  if !isPayToScriptHash scriptPubKey then getSigopCount scriptPubKey true
  else
    match lastOperand (scriptOps scriptSig) none with
    | some (some v) => getSigopCount v true
    | some none | none => .ok 0

/-- The version and the program. -/
def getWitnessProgram : Bytes → Outcome (Option (Nat × Bytes))
  | version :: length :: program =>
    if program.length + 2 < 4 ∨ program.length + 2 > 42 then .ok none
    else if version ≠ op0 ∧ (version < op1 ∨ version > op16) then .ok none
    else do
      let size ← Profile.dev.add 8 length.toNat 2
      if size = program.length + 2 then do
        let version ← decodeOpN version
        pure (some (version, program))
      else pure none
  | _ => .ok none

/-- `last` of a `VarStrIter`, which ends where a string cannot be read. -/
def VarStrIter.last (buffer : Bytes) : Nat → Nat → Option Bytes → Outcome (Option Bytes)
  | 0, _, item => .ok item
  | remaining + 1, offset, item =>
    match (withOffset buffer offset >>= deserializeVarstr : Outcome (Bytes × Nat)) with
    | .ok (result, consumed) => do
      let offset ← Profile.dev.add 64 offset consumed
      VarStrIter.last buffer remaining offset (some result)
    | .err => .ok item
    | .fault => .fault

def witnessSigops (version : Nat) (witprogram witness : Bytes) : Outcome Nat :=
  if version = 0 then
    if witprogram.length = witnessV0KeyhashSize then .ok 1
    else if witprogram.length = witnessV0ScripthashSize ∧ witness ≠ [] ∧ witness[0]? ≠ some 0 then do
      let (count, consumed) ← expect (deserializeVarint witness)
      let item ← VarStrIter.last witness count.toNat consumed none
      let subscript ← Outcome.unwrap item
      getSigopCount subscript true
    else .ok 0
  else .ok 0

/-- The loop of `count_witness_sigops`: an operation without data leaves the last data as it is. -/
def lastData : List (Option ScriptOp) → Option Bytes → Option Bytes
  | [], last => last
  | some (_, some data) :: rest, _ => lastData rest (some data)
  | _ :: rest, last => lastData rest last

def countWitnessSigops (script scriptPubKey witnessComponents : Bytes) (flags : UInt32) : Outcome Nat :=
  if flags &&& scriptVerifyWitness = 0 then .ok 0
  else do
    let wp ← getWitnessProgram scriptPubKey
    match wp with
    | some (version, program) => witnessSigops version program witnessComponents
    | none =>
      if isPayToScriptHash scriptPubKey && isPushOnly script then
        match lastData (scriptOps script) none with
        | none => .ok 0
        | some data => do
          let wp ← getWitnessProgram data
          match wp with
          | some (version, program) => witnessSigops version program witnessComponents
          | none => .ok 0
      else .ok 0

/-! The cost of a transaction. -/

/-- `sum` of the counts of the scripts. -/
def sumSigops : List Bytes → Nat → Outcome Nat
  | [], total => .ok total
  | script :: rest, total => do
    let count ← getSigopCount script false
    let total ← Profile.dev.add 32 total count
    sumSigops rest total

def getLegacySigops (tx : Tx) : Outcome Nat := do
  let txinsSigops ← sumSigops (tx.txins.map (·.sigScript)) 0
  let txoutsSigops ← sumSigops (tx.txouts.map (·.script)) 0
  Profile.dev.add 32 txinsSigops txoutsSigops

/-- The loop of `get_p2sh_sigop_count`. -/
def sumP2shSigops (dependencies : List TxOut) : List TxIn → Nat → Nat → Outcome Nat
  | [], _, total => .ok total
  | txin :: rest, i, total => do
    let txout ← Outcome.unwrap dependencies[i]?
    let total ← (
      if isPayToScriptHash txout.script then do
        let count ← getSigopCount2 txout.script txin.sigScript
        Profile.dev.add 32 total count
      else .ok total : Outcome Nat)
    sumP2shSigops dependencies rest (i + 1) total

def getP2shSigopCount (tx : Tx) (dependencies : List TxOut) : Outcome Nat :=
  if tx.isCoinbase then .ok 0 else sumP2shSigops dependencies tx.txins 0 0

/-- The loop of `get_transaction_sigop_cost` over the witnesses. -/
def addWitnessSigops (dependencies : List TxOut) (witnessData : Option (List Bytes)) (flags : UInt32) :
    List TxIn → Nat → Nat → Outcome Nat
  | [], _, sigops => .ok sigops
  | txin :: rest, i, sigops => do
    let txout ← Outcome.unwrap dependencies[i]?
    let wd ← Outcome.unwrap witnessData
    let witness ← Outcome.unwrap wd[i]?
    let count ← countWitnessSigops txin.sigScript txout.script witness flags
    let sigops ← Profile.dev.add 32 sigops count
    addWitnessSigops dependencies witnessData flags rest (i + 1) sigops

def getTransactionSigopCost (tx : Tx) (dependencies : List TxOut) (flags : UInt32) : Outcome Nat := do
  let legacy ← getLegacySigops tx
  let sigops ← Profile.dev.mul 32 4 legacy
  if tx.isCoinbase then pure sigops
  else do
    let sigops ← (
      if flags &&& scriptVerifyP2sh ≠ 0 then do
        let count ← getP2shSigopCount tx dependencies
        let cost ← Profile.dev.mul 32 4 count
        Profile.dev.add 32 sigops cost
      else .ok sigops : Outcome Nat)
    if flags &&& scriptVerifyWitness ≠ 0 then
      -- `debug_assert!`
      if tx.witnessData.isSome then addWitnessSigops dependencies tx.witnessData flags tx.txins 0 sigops
      else .fault
    else pure sigops

/-- The flags that `analyze_tx` sets. -/
def scriptFlags (tx : Tx) : UInt32 :=
  if tx.witnessData.isSome then scriptVerifyP2sh ||| scriptVerifyWitness else scriptVerifyP2sh

end Bitlens

import Bitlens.Lib.Splits
import Bitlens.Script

namespace Bitlens
open Lib

namespace ScriptOp

/-- The number of bytes that give the size of the data. -/
def sizeWidth (opcode : UInt8) : Nat :=
  if opcode = opPushdata1 then 1 else if opcode = opPushdata2 then 2 else if opcode = opPushdata4 then 4 else 0

/-- How an operation is written. -/
def bytes : ScriptOp → Bytes
  | (opcode, none) => [opcode]
  | (opcode, some data) => opcode :: (leBytes (sizeWidth opcode) data.length ++ data)

/-- The size of the data that an opcode can announce: below `opPushdata1` it is the size itself. -/
def Announces (opcode : UInt8) (size : Nat) : Prop :=
  if opcode < opPushdata1 then size = opcode.toNat else size < 256 ^ sizeWidth opcode

/-- The operations that can be written. -/
def Valid : ScriptOp → Prop
  | (opcode, none) => opPushdata4 < opcode
  | (opcode, some data) => opcode ≤ opPushdata4 ∧ Announces opcode data.length

end ScriptOp

open ScriptOp

variable {script rest : Bytes} {opcode : UInt8} {op : ScriptOp} {nsize : Nat}

theorem readSize_eq_some {width : Nat} :
    (if script.length < width then none else some (leNat (script.take width), script.drop width)) = some (nsize, rest) ↔
      nsize < 256 ^ width ∧ script = leBytes width nsize ++ rest := by
  rw [Option.ite_none_left_eq_some, Option.some.injEq, Prod.mk.injEq]
  constructor
  · rintro ⟨long, rfl, rfl⟩
    have length : (script.take width).length = width := by
      rw [List.length_take]
      omega
    have small := leNat_lt (script.take width)
    have back := leBytes_leNat (script.take width)
    rw [length] at small back
    exact ⟨small, by rw [back, List.take_append_drop]⟩
  · rintro ⟨small, rfl⟩
    have length := length_leBytes width nsize
    refine ⟨by rw [List.length_append]; omega, ?_, List.drop_left' length⟩
    rw [List.take_left' length, leNat_leBytes, Nat.mod_eq_of_lt small]

theorem sizeWidth_of_lt (direct : opcode < opPushdata1) : sizeWidth opcode = 0 := by
  have below : opcode.toNat < 76 := UInt8.lt_iff_toNat_lt.mp direct
  unfold sizeWidth
  rw [if_neg, if_neg, if_neg]
  · rintro rfl
    exact absurd below (by decide)
  · rintro rfl
    exact absurd below (by decide)
  · rintro rfl
    exact absurd below (by decide)

theorem operandSize_eq_some (small : opcode ≤ opPushdata4) :
    operandSize opcode script = some (nsize, rest) ↔
      Announces opcode nsize ∧ script = leBytes (sizeWidth opcode) nsize ++ rest := by
  unfold operandSize Announces
  by_cases direct : opcode < opPushdata1
  · rw [if_pos direct, if_pos direct, sizeWidth_of_lt direct, Option.some.injEq, Prod.mk.injEq, leBytes, List.nil_append]
    exact and_congr eq_comm Iff.rfl
  · rw [if_neg direct, if_neg direct]
    by_cases one : opcode = opPushdata1
    · subst one
      exact readSize_eq_some
    by_cases two : opcode = opPushdata2
    · subst two
      exact readSize_eq_some
    by_cases four : opcode = opPushdata4
    · subst four
      exact readSize_eq_some
    · -- there is no other opcode between the two bounds
      have least := fun below => direct (UInt8.lt_iff_toNat_lt.mpr below)
      have greatest := UInt8.le_iff_toNat_le.mp small
      have not76 : opcode.toNat ≠ 76 := fun same => one (UInt8.toNat_inj.mp same)
      have not77 : opcode.toNat ≠ 77 := fun same => two (UInt8.toNat_inj.mp same)
      have not78 : opcode.toNat ≠ 78 := fun same => four (UInt8.toNat_inj.mp same)
      change ¬ opcode.toNat < 76 at least
      change opcode.toNat ≤ 78 at greatest
      omega

/-- An operation is read exactly if the script starts with it. -/
theorem getScriptOp_eq_some : getScriptOp script = (some op, rest) ↔ op.Valid ∧ script = op.bytes ++ rest := by
  obtain ⟨code, operand⟩ := op
  cases script with
  | nil =>
    refine iff_of_false (fun absurd => nomatch absurd) ?_
    rintro ⟨_, absurd⟩
    cases operand <;> cases absurd
  | cons opcode script =>
    rw [getScriptOp]
    by_cases small : opcode ≤ opPushdata4
    · rw [if_pos small]
      constructor
      · intro found
        cases size : operandSize opcode script with
        | none =>
          rw [size] at found
          cases found
        | some read =>
          obtain ⟨nsize, behind⟩ := read
          rw [size] at found
          dsimp only at found
          obtain ⟨announces, rfl⟩ := (operandSize_eq_some small).mp size
          by_cases short : behind.length < nsize
          · rw [if_pos short] at found
            cases found
          · rw [if_neg short] at found
            cases found
            have length : (behind.take nsize).length = nsize := by
              rw [List.length_take]
              omega
            refine ⟨⟨small, by rw [length]; exact announces⟩, ?_⟩
            rw [ScriptOp.bytes, length, List.cons_append, List.append_assoc, List.take_append_drop]
      · rintro ⟨valid, same⟩
        cases operand with
        | none =>
          cases same
          exact absurd valid (not_lt.mpr small)
        | some data =>
          rw [ScriptOp.bytes, List.cons_append, List.append_assoc] at same
          obtain ⟨rfl, rfl⟩ := List.cons.inj same
          rw [(operandSize_eq_some small).mpr ⟨valid.2, rfl⟩]
          dsimp only
          rw [if_neg (by rw [List.length_append]; omega), List.take_left, List.drop_left]
    · rw [if_neg small]
      constructor
      · intro found
        cases found
        exact ⟨not_le.mp small, rfl⟩
      · rintro ⟨valid, same⟩
        cases operand with
        | none =>
          cases same
          rfl
        | some data =>
          cases same
          exact absurd valid.1 small

theorem scriptOp_prefixFree : PrefixFree ScriptOp.bytes ScriptOp.Valid := by
  intro x y s t validX validY same
  have first := (@getScriptOp_eq_some (x.bytes ++ s) s x).mpr ⟨validX, rfl⟩
  have second := (@getScriptOp_eq_some (y.bytes ++ t) t y).mpr ⟨validY, rfl⟩
  rw [same] at first
  cases first.symm.trans second
  exact ⟨rfl, rfl⟩

/-- The operations before the first one that is cut off. -/
def operations (script : Bytes) : List ScriptOp :=
  ((scriptOps script).takeWhile Option.isSome).filterMap id

/-- No operation of the script is cut off. -/
def Whole (script : Bytes) : Prop :=
  none ∉ scriptOps script

theorem scriptOps_cons (found : getScriptOp script = (some op, rest)) :
    scriptOps script = some op :: scriptOps rest := by
  cases script with
  | nil => cases found
  | cons opcode script => rw [scriptOps, found]

/-- A script that is written operation by operation is read back. -/
theorem scriptOps_flatMap {ops : List ScriptOp} (valid : ∀ op ∈ ops, op.Valid) :
    scriptOps (ops.flatMap ScriptOp.bytes) = ops.map some := by
  induction ops with
  | nil => rw [List.flatMap_nil, scriptOps, List.map_nil]
  | cons op ops ih =>
    rw [List.forall_mem_cons] at valid
    rw [List.flatMap_cons, scriptOps_cons (getScriptOp_eq_some.mpr ⟨valid.1, rfl⟩), ih valid.2, List.map_cons]

theorem operations_cons (found : getScriptOp script = (some op, rest)) : operations script = op :: operations rest := by
  rw [operations, scriptOps_cons found, List.takeWhile_cons_of_pos rfl]
  rfl

theorem operations_stop (found : (getScriptOp script).1 = none) : operations script = [] := by
  cases script with
  | nil =>
    rw [operations, scriptOps]
    rfl
  | cons opcode script =>
    rw [operations, scriptOps, found]
    rfl

theorem exists_operations_tail (script : Bytes) : ∃ tail, Splits ScriptOp.bytes ScriptOp.Valid script (operations script) tail ∧
    (tail = [] ↔ Whole script) := by
  induction length : script.length using Nat.strong_induction_on generalizing script with
  | _ n ih =>
    cases script with
    | nil =>
      rw [operations_stop rfl, Whole, scriptOps]
      refine ⟨[], .nil fun op _ rest same => ?_, by simp⟩
      obtain ⟨opcode, operand⟩ := op
      cases operand <;> cases same
    | cons opcode script =>
      obtain ⟨read, rest, found⟩ : ∃ read rest, getScriptOp (opcode :: script) = (read, rest) := ⟨_, _, rfl⟩
      have shorter := length_getScriptOp opcode script
      rw [found] at shorter
      rw [List.length_cons] at length
      cases read with
      | none =>
        have first : (getScriptOp (opcode :: script)).1 = none := by rw [found]
        rw [operations_stop first, Whole, scriptOps, first]
        refine ⟨opcode :: script, .nil fun op valid rest same => ?_, by simp⟩
        rw [getScriptOp_eq_some.mpr ⟨valid, same⟩] at first
        cases first
      | some op =>
        obtain ⟨tail, splits, whole⟩ := ih rest.length (by dsimp only at shorter; omega) rest rfl
        obtain ⟨valid, split⟩ := getScriptOp_eq_some.mp found
        rw [operations_cons found, Whole, scriptOps_cons found, List.mem_cons]
        exact ⟨tail, splits.cons valid split, by simpa [Whole] using whole⟩

/-- The operations of a script are the only ones that it can be cut into; what is
left over is empty if none of them is cut off. -/
theorem operations_splits (script : Bytes) : ∃ tail, Splits ScriptOp.bytes ScriptOp.Valid script (operations script) tail ∧
    (tail = [] ↔ Whole script) ∧
      ∀ ops other, Splits ScriptOp.bytes ScriptOp.Valid script ops other → ops = operations script ∧ other = tail := by
  obtain ⟨tail, splits, whole⟩ := exists_operations_tail script
  exact ⟨tail, splits, whole, fun ops other cut => cut.unique scriptOp_prefixFree splits⟩

end Bitlens

import Bitlens.RoundTrip

namespace Bitlens
open Lib

variable {α β : Type} {buffer other bytes : Bytes} {start stop offset : Nat}

theorem survey_bind {s : Survey α} {f : α → Survey β} {b : β} :
    (s >>= f).result = some b ↔ ∃ a, s.result = some a ∧ (f a).result = some b := by
  obtain ⟨demands, result⟩ := s
  cases result with
  | none =>
    constructor
    · intro absent
      cases absent
    · intro ⟨a, absent, _⟩
      cases absent
  | some a =>
    constructor
    · exact fun found => ⟨a, rfl, found⟩
    · intro ⟨a', same, found⟩
      cases same
      exact found

theorem survey_orBail {x : Option α} {a : α} : (orBail x : Survey α).result = some a ↔ x = some a := by
  cases x with
  | none =>
    constructor
    · intro absent
      cases absent
    · intro absent
      cases absent
  | some b => exact Iff.rfl

theorem length_of_take_eq (inBounds : stop ≤ buffer.length) (same : other.take stop = buffer.take stop) :
    stop ≤ other.length := by
  have length := congrArg List.length same
  rw [List.length_take, List.length_take, Nat.min_eq_left inBounds] at length
  omega

theorem take_of_take {n : Nat} (same : other.take n = buffer.take n) (below : stop ≤ n) :
    other.take stop = buffer.take stop := by
  have cut := congrArg (List.take stop) same
  rwa [List.take_take, List.take_take, Nat.min_eq_left below] at cut

theorem getRange_congr (found : getRange buffer start stop = some bytes) (same : other.take stop = buffer.take stop) :
    getRange other start stop = some bytes := by
  obtain ⟨ordered, inBounds, slice⟩ := getRange_eq_some.mp found
  refine getRange_eq_some.mpr ⟨ordered, length_of_take_eq inBounds same, ?_⟩
  rw [same]
  exact slice

theorem getBytes_congr {width : Nat} (found : (getBytes width buffer offset : Survey Bytes).result = some bytes)
    (small : offset + width < 2 ^ 64) (same : other.take (offset + width) = buffer.take (offset + width)) :
    (getBytes width other offset : Outcome Bytes) = .ok bytes := by
  obtain ⟨stop, sum, found⟩ := survey_bind.mp found
  cases Option.some.inj sum
  rw [getBytes, add_ok small, Outcome.ok_bind, getRange_congr (survey_orBail.mp found) same]
  rfl

/-- A compact size only depends on its own bytes. -/
theorem deserializeVarint_congr {v : UInt64} {n : Nat}
    (found : (deserializeVarint buffer : Survey (UInt64 × Nat)).result = some (v, n))
    (same : other.take n = buffer.take n) : (deserializeVarint other : Outcome (UInt64 × Nat)) = .ok (v, n) := by
  cases buffer with
  | nil => cases found
  | cons leader tail =>
    have first : ∀ k, n = k + 1 → ∃ rest, other = leader :: rest := by
      intro k shape
      rw [shape, List.take_succ_cons] at same
      cases other with
      | nil => cases same
      | cons byte rest => exact ⟨rest, by rw [(List.cons.inj same).1]⟩
    rw [deserializeVarint] at found
    by_cases one : leader < 0xFD
    · rw [if_pos one] at found
      cases found
      obtain ⟨rest, rfl⟩ := first 0 rfl
      rw [deserializeVarint, if_pos one]
      rfl
    rw [if_neg one] at found
    by_cases two : leader = 0xFD
    · rw [if_pos two] at found
      obtain ⟨value, read, found⟩ := survey_bind.mp found
      obtain ⟨read, slice, shape⟩ := survey_bind.mp read
      cases shape
      cases found
      obtain ⟨rest, rfl⟩ := first 2 rfl
      rw [deserializeVarint, if_neg one, if_pos two, getU16Le, getBytes_congr slice (by decide) same]
      rfl
    rw [if_neg two] at found
    by_cases four : leader = 0xFE
    · rw [if_pos four] at found
      obtain ⟨value, read, found⟩ := survey_bind.mp found
      obtain ⟨read, slice, shape⟩ := survey_bind.mp read
      cases shape
      cases found
      obtain ⟨rest, rfl⟩ := first 4 rfl
      rw [deserializeVarint, if_neg one, if_neg two, if_pos four, getU32Le, getBytes_congr slice (by decide) same]
      rfl
    · rw [if_neg four] at found
      obtain ⟨value, read, found⟩ := survey_bind.mp found
      obtain ⟨read, slice, shape⟩ := survey_bind.mp read
      cases shape
      cases found
      obtain ⟨rest, rfl⟩ := first 8 rfl
      rw [deserializeVarint, if_neg one, if_neg two, if_neg four, getU64Le, getBytes_congr slice (by decide) same]
      rfl

theorem withOffset_congr (inBounds : offset ≤ other.length) :
    (withOffset other offset : Outcome Bytes) = .ok (other.drop offset) := by
  have found : getRange other offset other.length = some (other.drop offset) :=
    getRange_eq_some.mpr ⟨inBounds, le_rfl, by rw [List.take_length]⟩
  rw [withOffset, found]
  rfl

theorem withOffset_survey {rest : Bytes} (found : (withOffset buffer offset : Survey Bytes).result = some rest) :
    offset ≤ buffer.length ∧ rest = buffer.drop offset := by
  obtain ⟨inBounds, _, slice⟩ := getRange_eq_some.mp (survey_orBail.mp found)
  rw [List.take_length] at slice
  exact ⟨inBounds, slice.symm⟩

theorem skipVarstrs_le {remaining : Nat} (found : (skipVarstrs buffer remaining offset : Survey Nat).result = some stop) :
    offset ≤ stop := by
  induction remaining generalizing offset with
  | zero => exact le_of_eq (Option.some.inj found)
  | succ remaining ih =>
    obtain ⟨rest, _, found⟩ := survey_bind.mp found
    obtain ⟨⟨varstrLength, consumed⟩, _, found⟩ := survey_bind.mp found
    obtain ⟨position, sum, found⟩ := survey_bind.mp found
    obtain ⟨next, total, found⟩ := survey_bind.mp found
    cases Option.some.inj sum
    cases Option.some.inj total
    have later := ih found
    omega

/-- The loop over the strings only looks at the bytes it walks over. -/
theorem skipVarstrs_congr {remaining : Nat}
    (found : (skipVarstrs buffer remaining offset : Survey Nat).result = some stop) (small : stop < 2 ^ 64)
    (inBounds : stop ≤ buffer.length) (same : other.take stop = buffer.take stop) :
    (skipVarstrs other remaining offset : Outcome Nat) = .ok stop := by
  induction remaining generalizing offset with
  | zero => exact congrArg Outcome.ok (Option.some.inj found)
  | succ remaining ih =>
    have start := skipVarstrs_le found
    obtain ⟨rest, behind, found⟩ := survey_bind.mp found
    obtain ⟨_, rfl⟩ := withOffset_survey behind
    obtain ⟨⟨varstrLength, consumed⟩, read, found⟩ := survey_bind.mp found
    obtain ⟨position, sum, found⟩ := survey_bind.mp found
    obtain ⟨next, total, found⟩ := survey_bind.mp found
    cases Option.some.inj sum
    cases Option.some.inj total
    have later := skipVarstrs_le found
    have window : (other.drop offset).take consumed = (buffer.drop offset).take consumed := by
      rw [List.take_drop, List.take_drop, take_of_take same (by omega)]
    have long := length_of_take_eq inBounds same
    rw [skipVarstrs, withOffset_congr (by omega), Outcome.ok_bind, deserializeVarint_congr read window, Outcome.ok_bind]
    dsimp only
    rw [add_ok (by omega), Outcome.ok_bind, addLength_ok (by omega), Outcome.ok_bind]
    exact ih found

/-- An array of strings that was read as one string is read back from its own bytes. -/
theorem decodes_arrayOfVarstr {r : Bytes} {n : Nat} (small : buffer.length < 2 ^ 64)
    (found : (deserializeArrayOfVarstrAsVarstr buffer : Survey (Bytes × Nat)).result = some (r, n)) :
    r.length = n ∧ Decodes deserializeArrayOfVarstrAsVarstr r r := by
  obtain ⟨⟨count, start⟩, read, found⟩ := survey_bind.mp found
  obtain ⟨stop, skipped, found⟩ := survey_bind.mp found
  obtain ⟨bytes, slice, shape⟩ := survey_bind.mp found
  cases shape
  obtain ⟨_, inBounds, taken⟩ := getRange_eq_some.mp (survey_orBail.mp slice)
  rw [List.drop_zero] at taken
  subst taken
  have ordered : start ≤ n := skipVarstrs_le skipped
  have length : (buffer.take n).length = n := by rw [List.length_take, Nat.min_eq_left inBounds]
  refine ⟨length, fun rest => ?_⟩
  have same : (buffer.take n ++ rest).take n = buffer.take n := by rw [List.take_left' length]
  have whole : getRange (buffer.take n ++ rest) 0 n = some (buffer.take n) := by
    refine getRange_eq_some.mpr ⟨Nat.zero_le _, length_of_take_eq inBounds same, ?_⟩
    rw [same, List.drop_zero]
  rw [deserializeArrayOfVarstrAsVarstr, deserializeVarint_congr read (take_of_take same ordered), Outcome.ok_bind]
  dsimp only
  rw [skipVarstrs_congr skipped (by omega) inBounds same, Outcome.ok_bind, whole, length]
  rfl

/-! Stacks of strings. -/

/-- The items of a raw witness, which takes all its bytes. -/
def IsStack (witness : Bytes) (items : List Bytes) : Prop :=
  ∃ count start, (deserializeVarint witness : Outcome (UInt64 × Nat)) = .ok (count, start) ∧
    (deserializeItems deserializeVarstr witness count.toNat start : Outcome (List Bytes × Nat)) =
      .ok (items, witness.length)

theorem deserializeVarstr_eq_ok {bytes item : Bytes} {n : Nat}
    (read : (deserializeVarstr bytes : Outcome (Bytes × Nat)) = .ok (item, n)) :
    ∃ length size, (deserializeVarint bytes : Outcome (UInt64 × Nat)) = .ok (length, size) ∧ n = size + length.toNat ∧
      getRange bytes size n = some item ∧ item.length = length.toNat := by
  obtain ⟨⟨length, size⟩, varint, read⟩ := Outcome.bind_eq_ok.mp read
  obtain ⟨needed, _, read⟩ := Outcome.bind_eq_ok.mp read
  obtain ⟨_, _, read⟩ := Outcome.bind_eq_ok.mp read
  obtain ⟨stop, sum, read⟩ := Outcome.bind_eq_ok.mp read
  obtain ⟨value, slice, read⟩ := Outcome.bind_eq_ok.mp read
  obtain ⟨consumed, total, read⟩ := Outcome.bind_eq_ok.mp read
  cases read
  obtain ⟨_, rfl⟩ := Profile.dev_add_eq_ok.mp sum
  obtain ⟨_, rfl⟩ := Profile.dev_add_eq_ok.mp total
  have found := Outcome.unwrap_eq_ok.mp slice
  exact ⟨length, size, varint, rfl, found, by rw [length_of_getRange found, Nat.add_sub_cancel_left]⟩

theorem withOffset_eq_ok {bytes rest : Bytes} {offset : Nat}
    (found : (withOffset bytes offset : Outcome Bytes) = .ok rest) : offset ≤ bytes.length ∧ rest = bytes.drop offset := by
  unfold withOffset at found
  cases slice : getRange bytes offset bytes.length with
  | none =>
    rw [slice] at found
    cases found
  | some value =>
    rw [slice] at found
    cases found
    obtain ⟨inBounds, _, same⟩ := getRange_eq_some.mp slice
    rw [List.take_length] at same
    exact ⟨inBounds, same.symm⟩

/-! A result on the heap is what the survey notes. -/

theorem survey_getBytes {width : Nat} (read : (getBytes width buffer offset : Outcome Bytes) = .ok bytes) :
    (getBytes width buffer offset : Survey Bytes).result = some bytes := by
  obtain ⟨stop, sum, read⟩ := Outcome.bind_eq_ok.mp read
  obtain ⟨_, rfl⟩ := Profile.dev_add_eq_ok.mp sum
  refine survey_bind.mpr ⟨_, rfl, ?_⟩
  cases slice : getRange buffer offset (offset + width) with
  | none =>
    rw [slice] at read
    cases read
  | some value =>
    rw [slice] at read
    cases read
    rfl

/-- A number of some width is read, and what becomes of it is returned. -/
theorem survey_number {α β : Type} {width : Nat} {number : Bytes → α} {result : α → β} {b : β}
    (read : ((getBytes width buffer offset >>= fun raw => pure (number raw)) >>= fun a => pure (result a) : Outcome β) =
      .ok b) :
    ((getBytes width buffer offset >>= fun raw => pure (number raw)) >>= fun a => pure (result a) : Survey β).result =
      some b := by
  obtain ⟨a, numbered, read⟩ := Outcome.bind_eq_ok.mp read
  obtain ⟨raw, slice, numbered⟩ := Outcome.bind_eq_ok.mp numbered
  cases numbered
  cases read
  exact survey_bind.mpr ⟨_, survey_bind.mpr ⟨raw, survey_getBytes slice, rfl⟩, rfl⟩

theorem survey_varint {v : UInt64} {n : Nat} (read : (deserializeVarint buffer : Outcome (UInt64 × Nat)) = .ok (v, n)) :
    (deserializeVarint buffer : Survey (UInt64 × Nat)).result = some (v, n) := by
  cases buffer with
  | nil => cases read
  | cons leader tail =>
    rw [deserializeVarint] at read ⊢
    split at read
    · next one =>
      rw [if_pos one]
      cases read
      rfl
    next one =>
    rw [if_neg one]
    split at read
    · next two =>
      rw [if_pos two]
      exact survey_number read
    next two =>
    rw [if_neg two]
    split at read
    · next four =>
      rw [if_pos four]
      exact survey_number read
    · next four =>
      rw [if_neg four]
      exact survey_number read

/-- The loop that skips strings stops where the one that reads them does. -/
theorem survey_skipVarstrs {count : Nat} {items : List Bytes}
    (read : (deserializeItems deserializeVarstr buffer count offset : Outcome (List Bytes × Nat)) = .ok (items, stop)) :
    (skipVarstrs buffer count offset : Survey Nat).result = some stop := by
  induction count generalizing offset items with
  | zero =>
    cases read
    rfl
  | succ count ih =>
    obtain ⟨rest, behind, read⟩ := Outcome.bind_eq_ok.mp read
    obtain ⟨⟨item, consumed⟩, first, read⟩ := Outcome.bind_eq_ok.mp read
    obtain ⟨next, sum, read⟩ := Outcome.bind_eq_ok.mp read
    obtain ⟨⟨items, last⟩, later, read⟩ := Outcome.bind_eq_ok.mp read
    cases read
    obtain ⟨inBounds, rfl⟩ := withOffset_eq_ok behind
    obtain ⟨length, size, varint, rfl, _, _⟩ := deserializeVarstr_eq_ok first
    obtain ⟨_, rfl⟩ := Profile.dev_add_eq_ok.mp sum
    have slice : getRange buffer offset buffer.length = some (buffer.drop offset) :=
      getRange_eq_some.mpr ⟨inBounds, le_rfl, by rw [List.take_length]⟩
    refine survey_bind.mpr ⟨_, survey_orBail.mpr slice, survey_bind.mpr ⟨_, survey_varint varint, ?_⟩⟩
    refine survey_bind.mpr ⟨_, rfl, survey_bind.mpr ⟨_, rfl, ?_⟩⟩
    rw [Nat.add_assoc]
    exact ih later

/-- A stack is read back as one string, whatever stands behind it. -/
theorem IsStack.decodes {witness : Bytes} {items : List Bytes} (stack : IsStack witness items)
    (small : witness.length < 2 ^ 64) : Decodes deserializeArrayOfVarstrAsVarstr witness witness := by
  obtain ⟨count, start, varint, read⟩ := stack
  have whole : getRange witness 0 witness.length = some witness :=
    getRange_eq_some.mpr ⟨Nat.zero_le _, le_rfl, by rw [List.take_length, List.drop_zero]⟩
  refine (@decodes_arrayOfVarstr witness witness witness.length small ?_).2
  refine survey_bind.mpr ⟨_, survey_varint varint, survey_bind.mpr ⟨_, survey_skipVarstrs read, ?_⟩⟩
  exact survey_bind.mpr ⟨_, survey_orBail.mpr whole, rfl⟩

theorem isStack_serialize {items : List Bytes} (small : (serializeArray serializeVarstr items).length < 2 ^ 64)
    (count : items.length < 2 ^ 64) : IsStack (serializeArray serializeVarstr items) items := by
  have decodes : ∀ x ∈ items, Decodes deserializeVarstr (serializeVarstr x) x := by
    intro x member
    refine decodes_varstr ?_
    have within := @length_le_flatMap_of_mem _ serializeVarstr _ x member
    rw [serializeArray, List.length_append] at small
    omega
  have read := decodes_items decodes small count []
  rw [List.append_nil] at read
  obtain ⟨⟨number, start⟩, varint, rest⟩ := Outcome.bind_eq_ok.mp read
  exact ⟨number, start, varint, rest⟩

end Bitlens

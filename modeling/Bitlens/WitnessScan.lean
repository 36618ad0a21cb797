import Bitlens.VarstrArrays

namespace Bitlens
open Lib

/-! The scan of an array of strings in the release build. -/

/-- One round of the loop in `deserialize_array_of_varstr_as_varstr`. -/
def scanNext (buffer : Bytes) (offset : Nat) : Wrapping Nat := do
  let rest ← withOffset buffer offset
  let (varstrLength, consumed) ← deserializeVarint rest
  let offset ← add offset consumed
  addLength offset varstrLength.toNat

/-- The offsets at which rounds begin. -/
def rounds (buffer : Bytes) : Nat → Nat → List Nat
  | 0, _ => []
  | remaining + 1, offset =>
    offset :: match (scanNext buffer offset : Outcome Nat) with
      | .ok next => rounds buffer remaining next
      | _ => []

/-- All rounds for a buffer. -/
def scanRounds (buffer : Bytes) : List Nat :=
  match (deserializeVarint buffer : Outcome (UInt64 × Nat)) with
  | .ok (remainingVarstrs, offset) => rounds buffer remainingVarstrs.toNat offset
  | _ => []

/-- What a `VarStrIter` yields; it ends where a string cannot be read. -/
def iterateVarstrs (buffer : Bytes) : Nat → Nat → Wrapping (List Bytes)
  | 0, _ => pure []
  | remaining + 1, offset =>
    match (withOffset buffer offset >>= deserializeVarstr : Wrapping (Bytes × Nat)) with
    | .ok (result, consumed) => do
      let offset ← add offset consumed
      let results ← iterateVarstrs buffer remaining offset
      pure (result :: results)
    | .err => pure []
    | .fault => .fault

def deserializeArrayOfVarsrsIter (buffer : Bytes) : Wrapping (List Bytes) := do
  let (count, consumed) ← deserializeVarint buffer
  iterateVarstrs buffer count.toNat consumed

/-- Each round moves the offset on, there are no more of them than bytes, and what is
returned is the start of the buffer with exactly the announced strings in it. -/
structure ScansWell (buffer : Bytes) : Prop where
  forward : ∀ offset ∈ scanRounds buffer, ∀ next, scanNext buffer offset = .ok next → offset < next
  few : (scanRounds buffer).length ≤ buffer.length
  whole : ∀ slice n, (deserializeArrayOfVarstrAsVarstr buffer : Wrapping (Bytes × Nat)) = .ok (slice, n) →
    n ≤ buffer.length ∧ slice = buffer.take n ∧ ∃ count start items,
      (deserializeVarint slice : Outcome (UInt64 × Nat)) = .ok (count, start) ∧ items.length = count.toNat ∧
        IsStack slice items ∧ deserializeArrayOfVarsrsIter slice = .ok items

/-! The strings that a buffer announces. -/

/-- The prefix of a string, with the length that it declares. -/
structure Announced where
  offset : Nat
  size : Nat
  length : Nat

def Announced.stop (x : Announced) : Nat :=
  x.offset + x.size + x.length

def announcedAt (buffer : Bytes) (offset : Nat) : Option Announced :=
  if offset ≤ buffer.length then
    match (deserializeVarint (buffer.drop offset) : Outcome (UInt64 × Nat)) with
    | .ok (length, size) => some ⟨offset, size, length.toNat⟩
    | _ => none
  else none

/-- The strings one behind the other, in 64-bit arithmetic, as far as there are any. -/
def announced (buffer : Bytes) : Nat → Nat → List Announced
  | 0, _ => []
  | remaining + 1, offset =>
    match announcedAt buffer offset with
    | some x => x :: announced buffer remaining (x.stop % 2 ^ 64)
    | none => []

/-- Where the last of them ends. -/
def endOf : Nat → List Announced → Nat
  | offset, [] => offset
  | _, x :: xs => endOf (x.stop % 2 ^ 64) xs

/-- The strings of a buffer. -/
def scanned (buffer : Bytes) : List Announced :=
  match (deserializeVarint buffer : Outcome (UInt64 × Nat)) with
  | .ok (remainingVarstrs, offset) => announced buffer remainingVarstrs.toNat offset
  | _ => []

/-- The array is not cut off: every announced string is there, and the last ends inside. -/
def Uncut (buffer : Bytes) : Prop :=
  ∃ count start, (deserializeVarint buffer : Outcome (UInt64 × Nat)) = .ok (count, start) ∧
    (announced buffer count.toNat start).length = count.toNat ∧
      endOf start (announced buffer count.toNat start) ≤ buffer.length

variable {buffer rest : Bytes} {offset remaining n : Nat} {x : Announced}

/-! Reading in the release build. -/

theorem getBytes_wrapping {width : Nat} (small : offset + width < 2 ^ 64) :
    (getBytes width buffer offset : Wrapping Bytes) = (getBytes width buffer offset : Outcome Bytes) := by
  have wraps : (add offset width : Wrapping Nat) = (.ok (offset + width) : Outcome Nat) := Profile.add_of_lt small
  unfold getBytes
  rw [wraps, add_ok small]
  cases getRange buffer offset (offset + width) <;> rfl

/-- No sum in a compact size can wrap. -/
theorem deserializeVarint_wrapping (buffer : Bytes) :
    (deserializeVarint buffer : Wrapping (UInt64 × Nat)) = (deserializeVarint buffer : Outcome (UInt64 × Nat)) := by
  cases buffer with
  | nil => rfl
  | cons leader tail =>
    rw [deserializeVarint, deserializeVarint]
    split
    · rfl
    split
    · rw [getU16Le, getBytes_wrapping (by decide)]
      rfl
    split
    · rw [getU32Le, getBytes_wrapping (by decide)]
      rfl
    · rw [getU64Le, getBytes_wrapping (by decide)]
      rfl

theorem getBytes_total {width : Nat} (small : offset + width < 2 ^ 64) : (getBytes width buffer offset : Outcome Bytes) = .err ∨
    ∃ bytes, (getBytes width buffer offset : Outcome Bytes) = .ok bytes ∧ offset + width ≤ buffer.length := by
  unfold getBytes
  rw [add_ok small]
  cases slice : getRange buffer offset (offset + width) with
  | none => exact .inl (by rw [Outcome.ok_bind, slice]; rfl)
  | some bytes =>
    refine .inr ⟨bytes, by rw [Outcome.ok_bind, slice]; rfl, ?_⟩
    exact (getRange_eq_some.mp slice).2.1

/-- A compact size is read, and then it is inside the buffer, or there is an error. -/
theorem deserializeVarint_total (buffer : Bytes) : (deserializeVarint buffer : Outcome (UInt64 × Nat)) = .err ∨
    ∃ v n, (deserializeVarint buffer : Outcome (UInt64 × Nat)) = .ok (v, n) ∧ 1 ≤ n ∧ n ≤ buffer.length := by
  cases buffer with
  | nil => exact .inl rfl
  | cons leader tail =>
    rw [deserializeVarint]
    split
    · exact .inr ⟨_, _, rfl, le_rfl, Nat.succ_le_succ (Nat.zero_le _)⟩
    split
    · rw [getU16Le]
      rcases @getBytes_total (leader :: tail) 1 2 (by decide) with none | ⟨bytes, read, inside⟩
      · exact .inl (by rw [none]; rfl)
      · exact .inr ⟨_, 3, by rw [read]; rfl, by decide, inside⟩
    split
    · rw [getU32Le]
      rcases @getBytes_total (leader :: tail) 1 4 (by decide) with none | ⟨bytes, read, inside⟩
      · exact .inl (by rw [none]; rfl)
      · exact .inr ⟨_, 5, by rw [read]; rfl, by decide, inside⟩
    · rw [getU64Le]
      rcases @getBytes_total (leader :: tail) 1 8 (by decide) with none | ⟨bytes, read, inside⟩
      · exact .inl (by rw [none]; rfl)
      · exact .inr ⟨_, 9, by rw [read]; rfl, by decide, inside⟩

theorem withOffset_wrapping (buffer : Bytes) (offset : Nat) : (withOffset buffer offset : Wrapping Bytes) =
    if offset ≤ buffer.length then (.ok (buffer.drop offset) : Outcome Bytes) else (.err : Outcome Bytes) := by
  rw [withOffset, getRange]
  by_cases inside : offset ≤ buffer.length
  · rw [if_pos ⟨inside, le_rfl⟩, if_pos inside, List.take_length]
    rfl
  · rw [if_neg fun range => inside range.1, if_neg inside]
    rfl

theorem release_add_eq (a b : Nat) : Profile.release.add 64 a b = .ok ((a + b) % 2 ^ 64) := by
  unfold Profile.add Profile.overflow
  split
  · next small => rw [Nat.mod_eq_of_lt small]
  · rfl

/-! A round and the strings. -/

theorem announcedAt_eq_some : announcedAt buffer offset = some x ↔ offset ≤ buffer.length ∧ x.offset = offset ∧
    ∃ length : UInt64, x.length = length.toNat ∧
      (deserializeVarint (buffer.drop offset) : Outcome (UInt64 × Nat)) = .ok (length, x.size) := by
  unfold announcedAt
  split
  · next inside =>
    split
    · next length size read =>
      constructor
      · intro same
        cases same
        exact ⟨inside, rfl, length, rfl, read⟩
      · rintro ⟨_, rfl, length', same, again⟩
        cases read.symm.trans again
        rw [← same]
    · next unread =>
      exact ⟨nofun, fun ⟨_, _, length, _, read⟩ => (unread _ _ read).elim⟩
  · next outside => exact ⟨nofun, fun ⟨inside, _⟩ => (outside inside).elim⟩

/-- The prefix of a string is inside the buffer. -/
theorem announcedAt_inside (found : announcedAt buffer offset = some x) :
    x.offset = offset ∧ 1 ≤ x.size ∧ offset + x.size ≤ buffer.length ∧ x.length < 2 ^ 64 := by
  obtain ⟨inside, at_, length, same, read⟩ := announcedAt_eq_some.mp found
  rcases deserializeVarint_total (buffer.drop offset) with unread | ⟨v, n, again, positive, within⟩
  · cases read.symm.trans unread
  · cases read.symm.trans again
    rw [List.length_drop] at within
    exact ⟨at_, positive, by omega, same ▸ length.toNat_lt⟩

/-- A round goes to where its string ends, modulo `2 ^ 64`. -/
theorem scanNext_eq (small : buffer.length < 2 ^ 64) : scanNext buffer offset =
    match announcedAt buffer offset with
    | some x => (.ok (x.stop % 2 ^ 64) : Outcome Nat)
    | none => (.err : Outcome Nat) := by
  have varint := deserializeVarint_wrapping (buffer.drop offset)
  cases found : announcedAt buffer offset with
  | none =>
    unfold announcedAt at found
    rw [scanNext, withOffset_wrapping]
    split at found
    · next inside =>
      rw [if_pos inside]
      rcases deserializeVarint_total (buffer.drop offset) with unread | ⟨v, n, read, _⟩
      · rw [unread] at varint
        change ((deserializeVarint (buffer.drop offset) : Wrapping _) >>= _ : Wrapping Nat) = _
        rw [varint]
        rfl
      · rw [read] at found
        cases found
    · next outside =>
      rw [if_neg outside]
      rfl
  | some x =>
    obtain ⟨inside, at_, length, same, read⟩ := announcedAt_eq_some.mp found
    have within := (announcedAt_inside found).2.2.1
    rw [read] at varint
    rw [scanNext, withOffset_wrapping, if_pos inside]
    change ((deserializeVarint (buffer.drop offset) : Wrapping _) >>= _ : Wrapping Nat) = _
    rw [varint]
    change ((Profile.release.add 64 offset x.size).bind fun offset => Profile.release.add 64 offset length.toNat) = _
    rw [release_add_eq, Nat.mod_eq_of_lt (by omega)]
    change Profile.release.add 64 (offset + x.size) length.toNat = .ok (x.stop % 2 ^ 64)
    rw [release_add_eq, Announced.stop, at_, same]

theorem skipVarstrs_succ : (skipVarstrs buffer (remaining + 1) offset : Wrapping Nat) =
    scanNext buffer offset >>= (skipVarstrs buffer remaining : Nat → Wrapping Nat) := by
  rw [skipVarstrs, scanNext]
  cases (withOffset buffer offset : Wrapping Bytes) with
  | err => rfl
  | fault => rfl
  | ok rest =>
    change ((deserializeVarint rest : Wrapping _) >>= _ : Wrapping Nat) =
      (((deserializeVarint rest : Wrapping _) >>= _) >>= _ : Wrapping Nat)
    cases (deserializeVarint rest : Wrapping (UInt64 × Nat)) with
    | err => rfl
    | fault => rfl
    | ok read =>
      obtain ⟨length, size⟩ := read
      change Outcome.bind (Profile.release.add 64 offset size) _ =
        Outcome.bind (Outcome.bind (Profile.release.add 64 offset size) _) _
      cases Profile.release.add 64 offset size <;> rfl

/-- The loop gets through when every announced string is there. -/
theorem skipVarstrs_eq (small : buffer.length < 2 ^ 64) : (skipVarstrs buffer remaining offset : Wrapping Nat) =
    if (announced buffer remaining offset).length = remaining then
      (.ok (endOf offset (announced buffer remaining offset)) : Outcome Nat) else (.err : Outcome Nat) := by
  induction remaining generalizing offset with
  | zero => rfl
  | succ remaining ih =>
    rw [skipVarstrs_succ, scanNext_eq small, announced]
    cases announcedAt buffer offset with
    | none => rfl
    | some x =>
      change (skipVarstrs buffer remaining (x.stop % 2 ^ 64) : Wrapping Nat) = _
      rw [ih]
      simp only [List.length_cons, Nat.add_right_cancel_iff, endOf]
      rfl

/-- What the scan returns. -/
theorem arrayOfVarstr_eq_ok {slice : Bytes} (small : buffer.length < 2 ^ 64) :
    (deserializeArrayOfVarstrAsVarstr buffer : Wrapping (Bytes × Nat)) = (.ok (slice, n) : Outcome (Bytes × Nat)) ↔
      ∃ count start, (deserializeVarint buffer : Outcome (UInt64 × Nat)) = .ok (count, start) ∧
        (announced buffer count.toNat start).length = count.toNat ∧ endOf start (announced buffer count.toNat start) = n ∧
          n ≤ buffer.length ∧ slice = buffer.take n := by
  have varint := deserializeVarint_wrapping buffer
  rw [deserializeArrayOfVarstrAsVarstr]
  cases read : (deserializeVarint buffer : Outcome (UInt64 × Nat)) with
  | err =>
    rw [varint, read]
    refine iff_of_false (fun absurd => by cases absurd) ?_
    rintro ⟨_, _, absent, _⟩
    cases absent
  | fault =>
    rw [varint, read]
    refine iff_of_false (fun absurd => by cases absurd) ?_
    rintro ⟨_, _, absent, _⟩
    cases absent
  | ok prefix_ =>
    obtain ⟨count, start⟩ := prefix_
    rw [varint, read]
    change ((skipVarstrs buffer count.toNat start : Wrapping Nat) >>= _ : Wrapping _) = _ ↔ _
    rw [skipVarstrs_eq small]
    constructor
    · intro returned
      split at returned
      · next all =>
        change ((orBail (getRange buffer 0 (endOf start (announced buffer count.toNat start))) : Wrapping Bytes) >>= _ :
          Wrapping _) = _ at returned
        cases slice : getRange buffer 0 (endOf start (announced buffer count.toNat start)) with
        | none =>
          rw [slice] at returned
          cases returned
        | some bytes =>
          rw [slice] at returned
          cases returned
          obtain ⟨_, inside, taken⟩ := getRange_eq_some.mp slice
          exact ⟨count, start, rfl, all, rfl, inside, taken.symm⟩
      · cases returned
    · rintro ⟨count', start', same, all, rfl, inside, rfl⟩
      cases same
      have slice : getRange buffer 0 (endOf start (announced buffer count.toNat start)) = some (buffer.take _) :=
        getRange_eq_some.mpr ⟨Nat.zero_le _, inside, by rw [List.drop_zero]⟩
      rw [if_pos all]
      change ((orBail (getRange buffer 0 (endOf start (announced buffer count.toNat start))) : Wrapping Bytes) >>= _ :
        Wrapping _) = _
      rw [slice]
      rfl

/-- A string is where its round begins. -/
theorem mem_announced (small : buffer.length < 2 ^ 64) (member : x ∈ announced buffer remaining offset) :
    x.offset ∈ rounds buffer remaining offset ∧ announcedAt buffer x.offset = some x := by
  induction remaining generalizing offset with
  | zero => cases member
  | succ remaining ih =>
    rw [announced] at member
    cases found : announcedAt buffer offset with
    | none =>
      rw [found] at member
      cases member
    | some first =>
      rw [found] at member
      rw [rounds, scanNext_eq small, found]
      rcases List.mem_cons.mp member with rfl | later
      · rw [(announcedAt_inside found).1]
        exact ⟨List.mem_cons_self, found⟩
      · obtain ⟨begins, known⟩ := ih later
        exact ⟨List.mem_cons_of_mem _ begins, known⟩

/-- The step lemma: a round moves on just when its string does not end at or before its start
modulo `2 ^ 64`. -/
theorem lt_next_iff (small : buffer.length < 2 ^ 64) (found : announcedAt buffer offset = some x) :
    offset < x.stop % 2 ^ 64 ↔ x.stop < 2 ^ 64 ∨ 2 ^ 64 < x.size + x.length := by
  obtain ⟨at_, positive, inside, short⟩ := announcedAt_inside found
  rw [Announced.stop, at_]
  by_cases wraps : offset + x.size + x.length < 2 ^ 64
  · rw [Nat.mod_eq_of_lt wraps]
    omega
  · rw [Nat.mod_eq_sub_mod (by omega), Nat.mod_eq_of_lt (by omega)]
    omega

theorem rounds_forward (small : buffer.length < 2 ^ 64)
    (advances : ∀ x ∈ announced buffer remaining offset, x.stop < 2 ^ 64 ∨ 2 ^ 64 < x.size + x.length) :
    ∀ begins ∈ rounds buffer remaining offset, ∀ next, scanNext buffer begins = .ok next → begins < next := by
  induction remaining generalizing offset with
  | zero => exact fun _ member => (List.not_mem_nil member).elim
  | succ remaining ih =>
    intro begins member next goes
    rw [rounds] at member
    rw [announced] at advances
    cases found : announcedAt buffer offset with
    | none =>
      have fails := @scanNext_eq buffer offset small
      rw [found] at fails
      rw [fails] at member
      rw [List.mem_singleton.mp member, fails] at goes
      cases goes
    | some x =>
      rw [found] at advances
      have steps := @scanNext_eq buffer offset small
      rw [found] at steps
      rw [steps] at member
      rcases List.mem_cons.mp member with rfl | later
      · cases steps.symm.trans goes
        exact (lt_next_iff small found).mpr (advances x List.mem_cons_self)
      · exact ih (fun x member => advances x (List.mem_cons_of_mem _ member)) begins later next goes

/-- Rounds that move forward end with the buffer. -/
theorem rounds_few (small : buffer.length < 2 ^ 64)
    (forward : ∀ begins ∈ rounds buffer remaining offset, ∀ next, scanNext buffer begins = .ok next → begins < next) :
    (rounds buffer remaining offset).length ≤ max 1 (buffer.length + 1 - offset) := by
  induction remaining generalizing offset with
  | zero => exact Nat.zero_le _
  | succ remaining ih =>
    rw [rounds] at forward ⊢
    have steps := @scanNext_eq buffer offset small
    cases found : announcedAt buffer offset with
    | none =>
      rw [found] at steps
      rw [steps]
      exact le_max_left 1 _
    | some x =>
      rw [found] at steps
      have first := forward offset List.mem_cons_self _ steps
      rw [steps] at forward ⊢
      have few := ih fun begins member => forward begins (List.mem_cons_of_mem _ member)
      obtain ⟨_, positive, inside, _⟩ := announcedAt_inside found
      change (rounds buffer remaining (x.stop % 2 ^ 64)).length + 1 ≤ _
      omega

/-! What is returned. -/

theorem le_endOf (exact_ : ∀ x ∈ announced buffer remaining offset, x.stop < 2 ^ 64) :
    offset ≤ endOf offset (announced buffer remaining offset) := by
  induction remaining generalizing offset with
  | zero => exact le_rfl
  | succ remaining ih =>
    rw [announced] at exact_ ⊢
    cases found : announcedAt buffer offset with
    | none => exact le_rfl
    | some x =>
      rw [found] at exact_
      have later := ih fun x member => exact_ x (List.mem_cons_of_mem _ member)
      have first := exact_ x List.mem_cons_self
      have at_ := (announcedAt_inside found).1
      rw [Nat.mod_eq_of_lt first] at later
      change offset ≤ endOf (x.stop % 2 ^ 64) (announced buffer remaining (x.stop % 2 ^ 64))
      rw [Nat.mod_eq_of_lt first]
      rw [Announced.stop, at_] at later ⊢
      omega

theorem take_drop_take {size : Nat} (inside : offset + size ≤ n) :
    ((buffer.take n).drop offset).take size = (buffer.drop offset).take size := by
  rw [List.take_drop, List.take_take, Nat.min_eq_left inside, ← List.take_drop]

/-- A string with its length inside the bytes is read in either build. -/
theorem deserializeVarstr_both {length : UInt64} {size : Nat} (small : rest.length < 2 ^ 64)
    (read : (deserializeVarint rest : Outcome (UInt64 × Nat)) = .ok (length, size))
    (inside : size + length.toNat ≤ rest.length) : ∃ item,
      (deserializeVarstr rest : Outcome (Bytes × Nat)) = .ok (item, size + length.toNat) ∧
        (deserializeVarstr rest : Wrapping (Bytes × Nat)) = (.ok (item, size + length.toNat) : Outcome (Bytes × Nat)) := by
  have slice : getRange rest size (size + length.toNat) = some ((rest.take (size + length.toNat)).drop size) :=
    getRange_eq_some.mpr ⟨Nat.le_add_right _ _, inside, rfl⟩
  have sum : (add size length.toNat : Wrapping Nat) = (.ok (size + length.toNat) : Outcome Nat) :=
    Profile.add_of_lt (by omega)
  have needed : (addLength length.toNat size : Wrapping Nat) = (.ok (length.toNat + size) : Outcome Nat) :=
    Profile.add_of_lt (by omega)
  have enough : ¬rest.length < length.toNat + size := by omega
  refine ⟨(rest.take (size + length.toNat)).drop size, ?_, ?_⟩
  · rw [deserializeVarstr, read, Outcome.ok_bind]
    dsimp only
    rw [addLength_ok (by omega), Outcome.ok_bind, ensure, if_pos enough, Outcome.pure_def, Outcome.ok_bind, add_ok (by omega),
      Outcome.ok_bind, slice]
    rfl
  · have varint := deserializeVarint_wrapping rest
    rw [read] at varint
    rw [deserializeVarstr, varint]
    change ((addLength length.toNat size : Wrapping Nat) >>= _ : Wrapping (Bytes × Nat)) = _
    rw [needed]
    change ((ensure (¬rest.length < length.toNat + size) : Wrapping Unit) >>= _ : Wrapping (Bytes × Nat)) = _
    rw [ensure, if_pos enough]
    change ((add size length.toNat : Wrapping Nat) >>= _ : Wrapping (Bytes × Nat)) = _
    rw [sum]
    change ((Decoding.unwrap (getRange rest size (size + length.toNat)) : Wrapping Bytes) >>= _ : Wrapping (Bytes × Nat)) = _
    rw [slice]
    rfl

/-- When no string wraps and all are there, they are read one by one from the bytes up to the
end of the last, by the reader and by the iterator. -/
theorem announced_read (small : buffer.length < 2 ^ 64) (inside : n ≤ buffer.length)
    (all : (announced buffer remaining offset).length = remaining)
    (exact_ : ∀ x ∈ announced buffer remaining offset, x.stop < 2 ^ 64)
    (stop : endOf offset (announced buffer remaining offset) = n) : ∃ items, items.length = remaining ∧
      (deserializeItems deserializeVarstr (buffer.take n) remaining offset : Outcome (List Bytes × Nat)) = .ok (items, n) ∧
        iterateVarstrs (buffer.take n) remaining offset = (.ok items : Outcome (List Bytes)) := by
  have length : (buffer.take n).length = n := by rw [List.length_take, Nat.min_eq_left inside]
  induction remaining generalizing offset with
  | zero =>
    cases stop
    exact ⟨[], rfl, rfl, rfl⟩
  | succ remaining ih =>
    rw [announced] at all exact_ stop
    cases found : announcedAt buffer offset with
    | none =>
      rw [found] at all
      cases all
    | some x =>
      rw [found] at all exact_ stop
      have first := exact_ x List.mem_cons_self
      have later : ∀ y ∈ announced buffer remaining (x.stop % 2 ^ 64), y.stop < 2 ^ 64 :=
        fun y member => exact_ y (List.mem_cons_of_mem _ member)
      have after : x.stop % 2 ^ 64 ≤ n := stop ▸ le_endOf later
      have rest := ih (Nat.add_right_cancel all) later stop
      rw [Nat.mod_eq_of_lt first] at after rest
      obtain ⟨items, count, reads, iterates⟩ := rest
      obtain ⟨_, at_, length_, same, read⟩ := announcedAt_eq_some.mp found
      obtain ⟨_, positive, _, _⟩ := announcedAt_inside found
      rw [Announced.stop, at_, same] at after reads iterates first
      have behind : ((buffer.take n).drop offset).length = n - offset := by rw [List.length_drop, length]
      have again : (deserializeVarint ((buffer.take n).drop offset) : Outcome (UInt64 × Nat)) = .ok (length_, x.size) :=
        deserializeVarint_congr (survey_varint read) (take_drop_take (by omega))
      obtain ⟨item, item_, wrapped⟩ := deserializeVarstr_both (by omega) again (by omega)
      refine ⟨item :: items, by rw [List.length_cons, count], ?_, ?_⟩
      · rw [deserializeItems, withOffset_congr (by omega), Outcome.ok_bind, item_, Outcome.ok_bind]
        dsimp only
        rw [add_ok (by omega), Outcome.ok_bind, ← Nat.add_assoc, reads]
        rfl
      · have sum : (add offset (x.size + length_.toNat) : Wrapping Nat) =
            (.ok (offset + x.size + length_.toNat) : Outcome Nat) := by
          rw [Nat.add_assoc]
          exact Profile.add_of_lt (by omega)
        have bound : (withOffset (buffer.take n) offset >>= deserializeVarstr : Wrapping (Bytes × Nat)) =
            (.ok (item, x.size + length_.toNat) : Outcome (Bytes × Nat)) := by
          rw [withOffset_wrapping, if_pos (by omega)]
          exact wrapped
        rw [iterateVarstrs, bound]
        dsimp only
        rw [sum]
        change ((iterateVarstrs (buffer.take n) remaining (offset + x.size + length_.toNat)) >>= _ : Wrapping (List Bytes)) = _
        rw [iterates]
        rfl

/-- Strings that are read from the bytes up to `n` end there. -/
theorem announced_le {items : List Bytes} {stop : Nat} (inside : n ≤ buffer.length)
    (reads : (deserializeItems deserializeVarstr (buffer.take n) remaining offset : Outcome (List Bytes × Nat)) =
      .ok (items, stop)) (small : n < 2 ^ 64) : ∀ x ∈ announced buffer remaining offset, x.stop ≤ n := by
  have length : (buffer.take n).length = n := by rw [List.length_take, Nat.min_eq_left inside]
  induction remaining generalizing offset items with
  | zero => exact fun _ member => (List.not_mem_nil member).elim
  | succ remaining ih =>
    obtain ⟨rest, behind, reads⟩ := Outcome.bind_eq_ok.mp reads
    obtain ⟨⟨item, consumed⟩, first, reads⟩ := Outcome.bind_eq_ok.mp reads
    obtain ⟨next, sum, reads⟩ := Outcome.bind_eq_ok.mp reads
    obtain ⟨⟨items, last⟩, later, reads⟩ := Outcome.bind_eq_ok.mp reads
    cases reads
    obtain ⟨within, rfl⟩ := withOffset_eq_ok behind
    obtain ⟨length_, size, varint, rfl, slice, _⟩ := deserializeVarstr_eq_ok first
    obtain ⟨_, rfl⟩ := Profile.dev_add_eq_ok.mp sum
    obtain ⟨_, ends, _⟩ := getRange_eq_some.mp slice
    rw [List.length_drop, length] at ends
    rw [length] at within
    have again : (deserializeVarint (buffer.drop offset) : Outcome (UInt64 × Nat)) = .ok (length_, size) :=
      deserializeVarint_congr (survey_varint varint) (take_drop_take (by omega)).symm
    have found : announcedAt buffer offset = some ⟨offset, size, length_.toNat⟩ :=
      announcedAt_eq_some.mpr ⟨within.trans inside, rfl, length_, rfl, again⟩
    rw [announced, found]
    intro x member
    have stop_ : (⟨offset, size, length_.toNat⟩ : Announced).stop = offset + (size + length_.toNat) := Nat.add_assoc _ _ _
    rcases List.mem_cons.mp member with rfl | afterwards
    · rw [stop_]
      omega
    · rw [stop_, Nat.mod_eq_of_lt (by omega)] at afterwards
      exact ih later x afterwards

theorem length_take_endOf {count : UInt64} {start : Nat}
    (within : endOf start (announced buffer count.toNat start) ≤ buffer.length) :
    (buffer.take (endOf start (announced buffer count.toNat start))).length = endOf start (announced buffer count.toNat start) :=
  List.length_take.trans (Nat.min_eq_left within)

/-- The strings of an array that is read from its own bytes do not wrap. -/
theorem ScansWell.exact {count : UInt64} {start : Nat} (small : buffer.length < 2 ^ 64)
    (read : (deserializeVarint buffer : Outcome (UInt64 × Nat)) = .ok (count, start)) (well : ScansWell buffer)
    (all : (announced buffer count.toNat start).length = count.toNat)
    (within : endOf start (announced buffer count.toNat start) ≤ buffer.length) :
    ∀ x ∈ announced buffer count.toNat start, x.stop < 2 ^ 64 := by
  obtain ⟨_, _, _, _, items, _, _, ⟨count', start', varint, reads⟩, _⟩ := well.whole _ _
    ((arrayOfVarstr_eq_ok small).mpr ⟨count, start, read, all, rfl, within, rfl⟩)
  have length := length_take_endOf within
  rcases deserializeVarint_total (buffer.take (endOf start (announced buffer count.toNat start))) with
    unread | ⟨_, _, same, _, inSlice⟩
  · cases varint.symm.trans unread
  · cases varint.symm.trans same
    rw [length] at inSlice
    have whole : (deserializeVarint buffer : Outcome (UInt64 × Nat)) = .ok (count', start') :=
      deserializeVarint_congr (survey_varint varint) (by rw [List.take_take, Nat.min_eq_left inSlice])
    cases read.symm.trans whole
    intro x member
    exact (announced_le within reads (by omega) x member).trans_lt (by omega)

/-- An array whose strings do not wrap is returned with exactly these in it. -/
theorem whole_of_exact {count : UInt64} {start : Nat} {slice : Bytes} (small : buffer.length < 2 ^ 64)
    (read : (deserializeVarint buffer : Outcome (UInt64 × Nat)) = .ok (count, start))
    (exact_ : Uncut buffer → ∀ x ∈ announced buffer count.toNat start, x.stop < 2 ^ 64)
    (returned : (deserializeArrayOfVarstrAsVarstr buffer : Wrapping (Bytes × Nat)) = (.ok (slice, n) : Outcome (Bytes × Nat))) :
    n ≤ buffer.length ∧ slice = buffer.take n ∧ ∃ count start items,
      (deserializeVarint slice : Outcome (UInt64 × Nat)) = .ok (count, start) ∧ items.length = count.toNat ∧
        IsStack slice items ∧ deserializeArrayOfVarsrsIter slice = .ok items := by
  obtain ⟨count', start', again, all, rfl, within, rfl⟩ := (arrayOfVarstr_eq_ok small).mp returned
  cases read.symm.trans again
  have noWrap := exact_ ⟨count, start, read, all, within⟩
  obtain ⟨items, length, reads, iterates⟩ := announced_read small within all noWrap rfl
  have varint : (deserializeVarint (buffer.take (endOf start (announced buffer count.toNat start))) : Outcome (UInt64 × Nat)) =
      .ok (count, start) :=
    deserializeVarint_congr (survey_varint read) (by rw [List.take_take, Nat.min_eq_left (le_endOf noWrap)])
  refine ⟨within, rfl, count, start, items, varint, length, ⟨count, start, varint, ?_⟩, ?_⟩
  · rw [length_take_endOf within]
    exact reads
  · rw [deserializeArrayOfVarsrsIter, deserializeVarint_wrapping, varint]
    exact iterates

/-- The scan is right just when each string moves it on, be it around `2 ^ 64`, and none
goes around when the array is not cut off. -/
theorem scansWell_iff (small : buffer.length < 2 ^ 64) : ScansWell buffer ↔
    (∀ x ∈ scanned buffer, x.stop < 2 ^ 64 ∨ 2 ^ 64 < x.size + x.length) ∧
      (Uncut buffer → ∀ x ∈ scanned buffer, x.stop < 2 ^ 64) := by
  rcases deserializeVarint_total buffer with unread | ⟨count, start, read, positive, inside⟩
  · have noStrings : scanned buffer = [] := by rw [scanned, unread]
    have noRounds : scanRounds buffer = [] := by rw [scanRounds, unread]
    rw [noStrings]
    refine ⟨fun _ => ⟨nofun, fun _ => nofun⟩, fun _ => ⟨?_, ?_, fun slice n returned => ?_⟩⟩
    · rw [noRounds]
      exact nofun
    · rw [noRounds]
      exact Nat.zero_le _
    · obtain ⟨count, start, read, _⟩ := (arrayOfVarstr_eq_ok small).mp returned
      cases unread.symm.trans read
  have strings : scanned buffer = announced buffer count.toNat start := by rw [scanned, read]
  have allRounds : scanRounds buffer = rounds buffer count.toNat start := by rw [scanRounds, read]
  rw [strings]
  constructor
  · intro well
    constructor
    · intro x member
      obtain ⟨begins, found⟩ := mem_announced small member
      refine (lt_next_iff small found).mp (well.forward x.offset (allRounds ▸ begins) _ ?_)
      rw [scanNext_eq small, found]
    · rintro ⟨count', start', again, all, within⟩
      cases read.symm.trans again
      exact well.exact small read all within
  · rintro ⟨advances, exact_⟩
    refine ⟨?_, ?_, fun slice n returned => whole_of_exact small read exact_ returned⟩
    · rw [allRounds]
      exact rounds_forward small advances
    · have few := rounds_few small (rounds_forward small advances)
      rw [allRounds]
      omega

/-- One string of two bytes. -/
theorem scansWell_iff_single : ScansWell [1, 2, 7, 8] := by
  have strings : scanned [1, 2, 7, 8] = [⟨1, 1, 2⟩] := rfl
  refine (@scansWell_iff [1, 2, 7, 8] (by decide)).mpr ?_
  rw [strings]
  exact ⟨by decide, fun _ => by decide⟩

/-- As many strings as there can be, and one of `2 ^ 64 - 9` bytes. -/
def trapBuffer : Bytes :=
  0xFF :: List.replicate 8 0xFF ++ [0xFF, 0xF7] ++ List.replicate 7 0xFF

/-- Each round ends where it began. -/
theorem rounds_trap (remaining : Nat) : rounds trapBuffer remaining 9 = List.replicate remaining 9 := by
  have stays : scanNext trapBuffer 9 = (.ok 9 : Outcome Nat) := rfl
  induction remaining with
  | zero => rfl
  | succ remaining ih =>
    rw [rounds, stays]
    exact congrArg (9 :: ·) ih

theorem scansWell_fails : ¬ ∀ buffer : Bytes, buffer.length < 2 ^ 64 → ScansWell buffer := by
  intro claim
  have few := (claim trapBuffer (by decide)).few
  have all : scanRounds trapBuffer = rounds trapBuffer (2 ^ 64 - 1) 9 := rfl
  rw [all, rounds_trap, List.length_replicate] at few
  exact absurd few (by decide)

end Bitlens

import Bitlens.Lib.Bytes

namespace Bitlens.Lib

/-- The forms of a compact size: the value in one byte, or a leader and the value in two, four or
eight bytes. -/
inductive CompactForm : Nat → Bytes → Prop
  | one {v : Nat} (small : v < 0xFD) : CompactForm v (leBytes 1 v)
  | two {v : Nat} (small : v < 2 ^ 16) : CompactForm v (0xFD :: leBytes 2 v)
  | four {v : Nat} (small : v < 2 ^ 32) : CompactForm v (0xFE :: leBytes 4 v)
  | eight {v : Nat} (small : v < 2 ^ 64) : CompactForm v (0xFF :: leBytes 8 v)

/-- A form of the value that is no longer than any other. -/
structure ShortestForm (v : Nat) (bytes : Bytes) : Prop where
  form : CompactForm v bytes
  least : ∀ other, CompactForm v other → bytes.length ≤ other.length

def compactSize (v : Nat) : Bytes :=
  if v < 0xFD then leBytes 1 v
  else if v ≤ 0xFFFF then 0xFD :: leBytes 2 v
  else if v ≤ 0xFFFFFFFF then 0xFE :: leBytes 4 v
  else 0xFF :: leBytes 8 v

variable {v : Nat} {bytes : Bytes}

theorem compactForm_compactSize (bound : v < 2 ^ 64) : CompactForm v (compactSize v) := by
  unfold compactSize
  split
  · next small => exact .one small
  split
  · next small => exact .two (Nat.lt_succ_of_le small)
  split
  · next small => exact .four (Nat.lt_succ_of_le small)
  · exact .eight bound

theorem length_compactSize (v : Nat) : (compactSize v).length =
    if v < 0xFD then 1 else if v ≤ 0xFFFF then 3 else if v ≤ 0xFFFFFFFF then 5 else 9 := by
  unfold compactSize
  split
  · rfl
  split
  · rfl
  split <;> rfl

/-- Two forms of a value with one length are the same. -/
theorem CompactForm.unique {other : Bytes} (form : CompactForm v bytes) (form' : CompactForm v other)
    (length : bytes.length = other.length) : bytes = other := by
  cases form with
  | one => cases form' <;> first | rfl | cases length
  | two => cases form' <;> first | rfl | cases length
  | four => cases form' <;> first | rfl | cases length
  | eight => cases form' <;> first | rfl | cases length

theorem compactSize_least {other : Bytes} (form : CompactForm v other) : (compactSize v).length ≤ other.length := by
  rw [length_compactSize]
  cases form with
  | one small => rw [if_pos small, length_leBytes]
  | two small =>
    rw [List.length_cons, length_leBytes]
    split
    · omega
    rw [if_pos (by omega)]
  | four small =>
    rw [List.length_cons, length_leBytes]
    split
    · omega
    split
    · omega
    rw [if_pos (by omega)]
  | eight =>
    rw [List.length_cons, length_leBytes]
    split
    · omega
    split
    · omega
    split <;> omega

/-- The shortest form of a value is the one that its range tells. -/
theorem shortestForm_iff (bound : v < 2 ^ 64) : ShortestForm v bytes ↔ bytes = compactSize v := by
  have form := compactForm_compactSize bound
  constructor
  · intro shortest
    exact shortest.form.unique form (le_antisymm (shortest.least _ form) (compactSize_least shortest.form))
  · rintro rfl
    exact ⟨form, fun _ => compactSize_least⟩

end Bitlens.Lib

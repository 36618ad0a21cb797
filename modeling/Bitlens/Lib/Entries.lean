import Mathlib.Data.List.Basic

namespace Bitlens.Lib

variable {κ υ : Type} [DecidableEq κ] {entries : List (κ × υ)} {key k : κ} {value v : υ}

/-- A `HashMap` that is iterated over is the list of its entries in the order of its iterator.
This is `HashMap::get`. -/
def lookupEntry (entries : List (κ × υ)) (key : κ) : Option υ :=
  (entries.find? fun entry => entry.1 = key).map (·.2)

/-- `HashMap::insert`, and an assignment through `get_mut`. -/
def insertEntry (entries : List (κ × υ)) (key : κ) (value : υ) : List (κ × υ) :=
  if (lookupEntry entries key).isSome then entries.map fun entry => if entry.1 = key then (key, value) else entry
  else entries ++ [(key, value)]

@[simp] theorem lookupEntry_nil : lookupEntry ([] : List (κ × υ)) key = none := rfl

theorem lookupEntry_cons (entry : κ × υ) :
    lookupEntry (entry :: entries) key = if entry.1 = key then some entry.2 else lookupEntry entries key := by
  by_cases same : entry.1 = key <;> simp [lookupEntry, same]

theorem lookupEntry_append (front back : List (κ × υ)) :
    lookupEntry (front ++ back) key = (lookupEntry front key).or (lookupEntry back key) := by
  simp [lookupEntry, List.find?_append, Option.map_or]

theorem isSome_lookupEntry_iff : (lookupEntry entries key).isSome ↔ key ∈ entries.map (·.1) := by
  simp [lookupEntry]

/-- Overwriting the entries of a key. -/
theorem lookupEntry_map : lookupEntry (entries.map fun entry => if entry.1 = key then (key, value) else entry) k =
    if k = key then (lookupEntry entries key).map fun _ => value else lookupEntry entries k := by
  induction entries with
  | nil => simp
  | cons entry entries ih =>
    rw [List.map_cons, lookupEntry_cons, lookupEntry_cons, lookupEntry_cons, ih]
    by_cases atKey : entry.1 = key <;> by_cases same : k = key
    · simp [atKey, same]
    · simp [atKey, same, Ne.symm same]
    · simp [atKey, same]
    · simp [atKey, same]

theorem lookupEntry_insertEntry :
    lookupEntry (insertEntry entries key value) k = if k = key then some value else lookupEntry entries k := by
  rw [insertEntry]
  split
  · next present =>
    obtain ⟨old, found⟩ := Option.isSome_iff_exists.mp present
    rw [lookupEntry_map, found, Option.map_some]
  · next absent =>
    rw [lookupEntry_append, lookupEntry_cons, lookupEntry_nil]
    by_cases same : k = key
    · rw [Bool.not_eq_true, Option.isSome_eq_false_iff, Option.isNone_iff_eq_none] at absent
      simp [same, absent]
    · simp [same, Ne.symm same]

section Lookups

variable {α β : Type} {f : α → Option β} {xs : List α} {ys : List β}

/-- A list of lookups succeeds when each of them does. -/
theorem mapM_isSome_iff : (xs.mapM f).isSome ↔ ∀ x ∈ xs, (f x).isSome := by
  induction xs with
  | nil => simp
  | cons x xs ih =>
    rw [List.mapM_cons, List.forall_mem_cons, ← ih]
    cases f x <;> cases xs.mapM f <;> simp

theorem length_of_mapM (found : xs.mapM f = some ys) : ys.length = xs.length := by
  induction xs generalizing ys with
  | nil =>
    cases found
    rfl
  | cons x xs ih =>
    rw [List.mapM_cons] at found
    obtain ⟨y, _, found⟩ := Option.bind_eq_some_iff.mp found
    obtain ⟨rest, atRest, found⟩ := Option.bind_eq_some_iff.mp found
    cases found
    simp [ih atRest]

end Lookups

end Bitlens.Lib

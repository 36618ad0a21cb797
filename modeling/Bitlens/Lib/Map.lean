import Mathlib.Logic.Basic

namespace Bitlens.Lib

/-- `HashMap::insert`. -/
def mapInsert {κ υ : Type} [DecidableEq κ] (map : κ → Option υ) (key : κ) (value : υ) : κ → Option υ :=
  fun k => if k = key then some value else map k

@[simp] theorem mapInsert_self {κ υ : Type} [DecidableEq κ] (map : κ → Option υ) (key : κ) (value : υ) :
    mapInsert map key value key = some value := by
  simp [mapInsert]

theorem mapInsert_of_ne {κ υ : Type} [DecidableEq κ] {map : κ → Option υ} {key k : κ} {value : υ}
    (other : k ≠ key) : mapInsert map key value k = map k := by
  simp [mapInsert, other]

theorem mapInsert_origin {κ υ : Type} [DecidableEq κ] {map : κ → Option υ} {key k : κ} {value v : υ}
    (found : mapInsert map key value k = some v) : (k = key ∧ value = v) ∨ map k = some v := by
  by_cases atKey : k = key
  · rw [atKey, mapInsert_self] at found
    exact Or.inl ⟨atKey, Option.some.inj found⟩
  · rw [mapInsert_of_ne atKey] at found
    exact Or.inr found

section Fold

variable {α κ υ : Type} [DecidableEq κ] {key : α → κ} {value : α → υ} {xs : List α} {map : κ → Option υ} {k : κ}

/-- A value found after a loop of insertions was inserted by it or was there before. -/
theorem foldl_mapInsert_origin {v : υ}
    (found : xs.foldl (fun map x => mapInsert map (key x) (value x)) map k = some v) :
    (∃ x ∈ xs, key x = k ∧ value x = v) ∨ map k = some v := by
  induction xs generalizing map with
  | nil => exact Or.inr found
  | cons y ys ih =>
    rcases ih found with ⟨x, member, atKey, same⟩ | before
    · exact Or.inl ⟨x, List.mem_cons_of_mem _ member, atKey, same⟩
    · rcases mapInsert_origin before with ⟨atY, same⟩ | earlier
      · exact Or.inl ⟨y, List.mem_cons_self, atY.symm, same⟩
      · exact Or.inr earlier

theorem mapInsert_isSome_of {v : υ} {key : κ} (before : k = key ∨ (map k).isSome) : (mapInsert map key v k).isSome := by
  by_cases atKey : k = key
  · rw [atKey, mapInsert_self]
    rfl
  · rw [mapInsert_of_ne atKey]
    exact before.resolve_left atKey

theorem foldl_mapInsert_isSome_of (before : (map k).isSome) :
    (xs.foldl (fun map x => mapInsert map (key x) (value x)) map k).isSome := by
  induction xs generalizing map with
  | nil => exact before
  | cons y ys ih => exact ih (mapInsert_isSome_of (Or.inr before))

theorem foldl_mapInsert_isSome {x : α} (member : x ∈ xs) :
    (xs.foldl (fun map x => mapInsert map (key x) (value x)) map (key x)).isSome := by
  induction xs generalizing map with
  | nil => cases member
  | cons y ys ih =>
    rw [List.foldl_cons]
    rcases List.mem_cons.mp member with rfl | later
    · exact foldl_mapInsert_isSome_of (mapInsert_isSome_of (Or.inl rfl))
    · exact ih later

/-- A loop that inserts every key once leaves what it inserted. -/
theorem foldl_mapInsert_of_nodup {x : α} (distinct : (xs.map key).Nodup) (member : x ∈ xs) :
    xs.foldl (fun map x => mapInsert map (key x) (value x)) map (key x) = some (value x) := by
  induction xs generalizing map with
  | nil => cases member
  | cons y ys ih =>
    rw [List.map_cons, List.nodup_cons] at distinct
    rw [List.foldl_cons]
    rcases List.mem_cons.mp member with rfl | later
    · have present : (ys.foldl (fun map x => mapInsert map (key x) (value x)) (mapInsert map (key x) (value x))
          (key x)).isSome := foldl_mapInsert_isSome_of (mapInsert_isSome_of (Or.inl rfl))
      obtain ⟨v, found⟩ := Option.isSome_iff_exists.mp present
      rcases foldl_mapInsert_origin found with ⟨z, inside, atKey, _⟩ | before
      · exact absurd (List.mem_map.mpr ⟨z, inside, atKey⟩) distinct.1
      · rw [found, ← before, mapInsert_self]
    · exact ih distinct.2 later

end Fold

end Bitlens.Lib

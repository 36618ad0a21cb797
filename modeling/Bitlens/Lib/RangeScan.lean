import Mathlib.Data.List.Lex
import Mathlib.Data.List.Dedup
import Bitlens.Lib.Bytes
import Bitlens.Lib.SstFile

namespace Bitlens.Lib

section Listing

variable {κ υ : Type} [LinearOrder κ] {store : κ → Option υ} {lower upper : κ} {entries other : List (κ × υ)}

/-- What an iterator between two bounds yields: the pairs of the store whose key is at
least the lower bound and below the upper one, in the order of their keys. -/
structure Lists (store : κ → Option υ) (lower upper : κ) (entries : List (κ × υ)) : Prop where
  strict : StrictKeys entries
  mem_iff : ∀ k v, (k, v) ∈ entries ↔ store k = some v ∧ lower ≤ k ∧ k < upper

theorem Lists.unique (one : Lists store lower upper entries) (two : Lists store lower upper other) : entries = other := by
  have sorted : ∀ {list : List (κ × υ)}, Lists store lower upper list → list.Pairwise fun a b => a.1 < b.1 :=
    fun lists => List.pairwise_map.mp lists.strict
  have apart : ∀ {list : List (κ × υ)}, Lists store lower upper list → list.Nodup :=
    fun lists => (sorted lists).imp fun {a b} below same => absurd (congrArg Prod.fst same) (ne_of_lt below)
  have perm : entries.Perm other := by
    rw [List.perm_ext_iff_of_nodup (apart one) (apart two)]
    intro entry
    rw [one.mem_iff, two.mem_iff]
  refine perm.eq_of_pairwise ?_ (sorted one) (sorted two)
  intro a b _ _ below above
  exact absurd (lt_trans below above) (lt_irrefl _)

/-- A store of finitely many keys can be listed. -/
theorem exists_lists {keys : List κ} (finite : ∀ k, store k ≠ none → k ∈ keys) : ∃ entries, Lists store lower upper entries := by
  let inside := keys.dedup.filter fun k => decide (lower ≤ k ∧ k < upper)
  obtain ⟨sorted, perm, order⟩ := exists_sortsBy id inside
  have nodup : sorted.Nodup := perm.nodup_iff.mpr (keys.nodup_dedup.filter _)
  have strict : sorted.Pairwise (· < ·) := (order.and nodup).imp fun both => lt_of_le_of_ne both.1 both.2
  refine ⟨sorted.filterMap fun k => (store k).map (k, ·), ?_, ?_⟩
  · rw [StrictKeys, List.pairwise_map]
    refine strict.filterMap _ ?_
    intro a b below x atA y atB
    obtain ⟨_, _, rfl⟩ := Option.map_eq_some_iff.mp atA
    obtain ⟨_, _, rfl⟩ := Option.map_eq_some_iff.mp atB
    exact below
  · intro k v
    simp only [List.mem_filterMap, Option.map_eq_some_iff, Prod.mk.injEq]
    constructor
    · rintro ⟨k, member, w, found, rfl, rfl⟩
      have bounds := (List.mem_filter.mp (perm.mem_iff.mp member)).2
      exact ⟨found, of_decide_eq_true bounds⟩
    · intro ⟨found, bounds⟩
      refine ⟨k, perm.mem_iff.mpr (List.mem_filter.mpr ⟨List.mem_dedup.mpr (finite k ?_), decide_eq_true bounds⟩), v, found,
        rfl, rfl⟩
      rw [found]
      exact Option.some_ne_none v

end Listing

section Lexicographic

variable {α : Type} [LinearOrder α] {front lower upper key : List α}

/-- Between two bounds with a common front lie the lists that start with it. -/
theorem between_append_iff : (front ++ lower ≤ key ∧ key < front ++ upper) ↔
    ∃ rest, key = front ++ rest ∧ lower ≤ rest ∧ rest < upper := by
  induction front generalizing key with
  | nil => simp
  | cons x front ih =>
    cases key with
    | nil =>
      constructor
      · intro ⟨below, _⟩
        exact absurd (List.nil_lt_cons x (front ++ lower)) (not_lt.mpr below)
      · rintro ⟨rest, impossible, _⟩
        cases impossible
    | cons y key =>
      simp only [← not_lt, List.cons_append, List.cons_lt_cons_iff, not_or, not_and, List.cons.injEq] at ih ⊢
      constructor
      · rintro ⟨⟨notLess, below⟩, less | ⟨rfl, above⟩⟩
        · exact absurd less notLess
        · obtain ⟨rest, shape, bounds⟩ := ih.mp ⟨below rfl, above⟩
          exact ⟨rest, ⟨rfl, shape⟩, bounds⟩
      · rintro ⟨rest, ⟨rfl, shape⟩, bounds⟩
        obtain ⟨below, above⟩ := ih.mpr ⟨rest, shape, bounds⟩
        exact ⟨⟨lt_irrefl _, fun _ => below⟩, Or.inr ⟨rfl, above⟩⟩

/-- Behind fronts of one length the order is decided by the fronts, and then by what follows. -/
theorem append_lt_append_iff {other : List α} (same : front.length = other.length) :
    front ++ lower < other ++ upper ↔ front < other ∨ front = other ∧ lower < upper := by
  induction front generalizing other with
  | nil =>
    rw [List.eq_nil_of_length_eq_zero same.symm]
    simp
  | cons x front ih =>
    cases other with
    | nil => cases same
    | cons y other =>
      rw [List.cons_append, List.cons_append, List.cons_lt_cons_iff, List.cons_lt_cons_iff,
        ih (Nat.succ.inj same), List.cons.injEq]
      tauto

theorem append_lt_iff {other : List α} (same : front.length = other.length) : front ++ lower < other ↔ front < other := by
  have plain := @append_lt_append_iff _ _ front lower [] other same
  rw [List.append_nil] at plain
  rw [plain, or_iff_left]
  rintro ⟨_, below⟩
  exact absurd below (List.not_lt_nil lower)

end Lexicographic

section Bytewise

theorem beBytes_succ (width value : Nat) :
    beBytes (width + 1) value = beBytes width (value / 256) ++ [UInt8.ofNat (value % 256)] := by
  rw [beBytes, leBytes, List.reverse_cons, beBytes]

theorem beBytes_inj {width a b : Nat} (boundA : a < 256 ^ width) (boundB : b < 256 ^ width)
    (same : beBytes width a = beBytes width b) : a = b := by
  have value := congrArg leNat (List.reverse_injective same)
  rwa [leNat_leBytes, leNat_leBytes, Nat.mod_eq_of_lt boundA, Nat.mod_eq_of_lt boundB] at value

/-- Big-endian bytes are ordered as the numbers are. -/
theorem beBytes_lt_iff {width a b : Nat} (boundA : a < 256 ^ width) (boundB : b < 256 ^ width) :
    beBytes width a < beBytes width b ↔ a < b := by
  induction width generalizing a b with
  | zero =>
    rw [pow_zero, Nat.lt_one_iff] at boundA boundB
    rw [boundA, boundB]
    exact iff_of_false (lt_irrefl _) (lt_irrefl _)
  | succ width ih =>
    have highA : a / 256 < 256 ^ width := Nat.div_lt_of_lt_mul (by rwa [pow_succ'] at boundA)
    have highB : b / 256 < 256 ^ width := Nat.div_lt_of_lt_mul (by rwa [pow_succ'] at boundB)
    have low : [UInt8.ofNat (a % 256)] < [UInt8.ofNat (b % 256)] ↔ a % 256 < b % 256 := by
      rw [List.cons_lt_cons_iff, UInt8.lt_iff_toNat_lt, UInt8.toNat_ofNat', UInt8.toNat_ofNat', Nat.mod_mod, Nat.mod_mod]
      simp
    have high : beBytes width (a / 256) = beBytes width (b / 256) ↔ a / 256 = b / 256 :=
      ⟨beBytes_inj highA highB, congrArg _⟩
    rw [beBytes_succ, beBytes_succ, append_lt_append_iff (by rw [length_beBytes, length_beBytes]), ih highA highB, high, low]
    omega

end Bytewise

end Bitlens.Lib

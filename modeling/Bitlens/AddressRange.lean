import Bitlens.AddressSeparation

namespace Bitlens
open Lib

/-- An entry of the index with the time that its key holds. -/
structure IndexEntry extends AddressEntry where
  timestamp : UInt64

def IndexEntry.key (address : Bytes) (e : IndexEntry) : Bytes :=
  amendKey address e.timestamp e.txHash

def IndexEntry.item (address : Bytes) (e : IndexEntry) : Bytes × Bytes :=
  (e.key address, amendValue e.blockHash e.delta)

/-- Newer entries come first, and those of one time in the order of their transactions. -/
def IndexEntry.Before (a b : IndexEntry) : Prop :=
  b.timestamp < a.timestamp ∨ a.timestamp = b.timestamp ∧ a.txHash.1 < b.txHash.1

/-- These are the entries of the address in the store: all that is stored under keys that
begin with the address. -/
structure Indexed (store : Bytes → Option Bytes) (address : Bytes) (entries : List IndexEntry) : Prop where
  order : entries.Pairwise IndexEntry.Before
  mem_iff : ∀ rest value, store (address ++ rest) = some value ↔ ∃ e ∈ entries, e.item address = (address ++ rest, value)

/-- The entries whose time lies in the closed interval. -/
def within (fromTimestamp toTimestamp : UInt64) (entries : List IndexEntry) : List IndexEntry :=
  entries.filter fun e => fromTimestamp ≤ e.timestamp ∧ e.timestamp ≤ toTimestamp

/-- The entries of the interval that are newer than its start. -/
def newer (fromTimestamp toTimestamp : UInt64) (entries : List IndexEntry) : List IndexEntry :=
  entries.filter fun e => fromTimestamp < e.timestamp ∧ e.timestamp ≤ toTimestamp

variable {store : Bytes → Option Bytes} {iterate : Bytes → Bytes → List (Bytes × Bytes)} {address key : Bytes}
  {entries : List IndexEntry} {e a b : IndexEntry} {fromTimestamp toTimestamp : UInt64} {limit : Nat}

/-! The order of the keys. -/

theorem inverted_lt {s t : UInt64} : 2 ^ 64 - 1 - s.toNat < 2 ^ 64 - 1 - t.toNat ↔ t < s := by
  have boundS := s.toNat_lt
  have boundT := t.toNat_lt
  rw [UInt64.lt_iff_toNat_lt]
  omega

theorem inverted_inj {s t : UInt64} : 2 ^ 64 - 1 - s.toNat = 2 ^ 64 - 1 - t.toNat ↔ s = t := by
  have boundS := s.toNat_lt
  have boundT := t.toNat_lt
  rw [← UInt64.toNat_inj]
  omega

theorem inverted_bound (t : UInt64) : 2 ^ 64 - 1 - t.toNat < 256 ^ 8 := by
  omega

theorem key_lt_iff : a.key address < b.key address ↔ a.Before b := by
  have keys : ∀ e : IndexEntry, e.key address = address ++ (beBytes 8 (2 ^ 64 - 1 - e.timestamp.toNat) ++ e.txHash.1) :=
    fun e => List.append_assoc _ _ _
  have times : beBytes 8 (2 ^ 64 - 1 - a.timestamp.toNat) = beBytes 8 (2 ^ 64 - 1 - b.timestamp.toNat) ↔
      a.timestamp = b.timestamp :=
    ⟨fun same => inverted_inj.mp (beBytes_inj (inverted_bound _) (inverted_bound _) same), fun same => by rw [same]⟩
  rw [keys, keys, append_lt_append_iff rfl, append_lt_append_iff (by rw [length_beBytes, length_beBytes]),
    beBytes_lt_iff (inverted_bound _) (inverted_bound _), inverted_lt, times, IndexEntry.Before]
  simp only [lt_irrefl, false_or, true_and]

/-- A key is below a bound without a transaction if its time is. -/
theorem key_lt_iff_lt {bound : Nat} (small : bound < 256 ^ 8) :
    e.key address < address ++ beBytes 8 bound ↔ 2 ^ 64 - 1 - e.timestamp.toNat < bound := by
  rw [IndexEntry.key, amendKey, List.append_assoc, append_lt_append_iff rfl,
    append_lt_iff (by rw [length_beBytes, length_beBytes]), beBytes_lt_iff (inverted_bound _) small]
  simp only [lt_irrefl, false_or, true_and]

theorem key_lt_bound (t : UInt64) :
    e.key address < address ++ beBytes 8 (2 ^ 64 - 1 - t.toNat) ↔ t < e.timestamp := by
  rw [key_lt_iff_lt (inverted_bound t), inverted_lt]

/-! What an iterator between two bounds with the address yields. -/

theorem holding_item : Holding address.length (e.item address) e.toAddressEntry := by
  have value : (amendValue e.blockHash e.delta).length = 40 := by
    rw [amendValue, List.length_append, length_leBytes, e.blockHash.2]
  have length : (e.key address).length = address.length + 8 + 32 := by
    rw [IndexEntry.key, amendKey, List.length_append, List.length_append, length_beBytes, e.txHash.2]
  refine holding_iff.mpr ⟨⟨length, value⟩, ?_, ?_, ?_⟩
  · rw [IndexEntry.item, IndexEntry.key, amendKey, List.drop_left']
    rw [List.length_append, length_beBytes]
  · rw [IndexEntry.item, amendValue, List.take_left' e.blockHash.2]
  · have small := e.delta.toUInt64.toNat_lt
    have stored : leNat (leBytes 8 e.delta.toUInt64.toNat) = e.delta.toUInt64.toNat := by
      rw [leNat_leBytes]
      exact Nat.mod_eq_of_lt small
    rw [IndexEntry.item, deltaOf, amendValue, List.drop_left' e.blockHash.2,
      List.take_of_length_le (length_leBytes 8 _).le, stored, UInt64.ofNat_toNat]
    rfl

theorem holdings_items (entries : List IndexEntry) :
    List.Forall₂ (Holding address.length) (entries.map (·.item address)) (entries.map (·.toAddressEntry)) := by
  induction entries with
  | nil => exact .nil
  | cons e entries ih => exact .cons holding_item ih

/-- The iterator yields the entries whose keys lie between the bounds. -/
theorem Indexed.iterate_eq (indexed : Indexed store address entries)
    (iterates : ∀ lower upper, Lists store lower upper (iterate lower upper)) (lower upper : Bytes) :
    iterate (address ++ lower) (address ++ upper) =
      (entries.filter fun e => address ++ lower ≤ e.key address ∧ e.key address < address ++ upper).map (·.item address) := by
  refine (iterates _ _).unique ⟨?_, fun key value => ?_⟩
  · rw [StrictKeys, List.map_map]
    refine List.pairwise_map.mpr ((indexed.order.filter _).imp fun before => ?_)
    exact key_lt_iff.mpr before
  · rw [List.mem_map]
    constructor
    · rintro ⟨e, member, same⟩
      obtain ⟨inEntries, bounds⟩ := List.mem_filter.mp member
      obtain ⟨rest, shape, _⟩ := between_append_iff.mp (of_decide_eq_true bounds)
      have stored := (indexed.mem_iff rest (amendValue e.blockHash e.delta)).mpr ⟨e, inEntries, by rw [← shape]; rfl⟩
      cases same
      rw [← shape] at stored
      exact ⟨stored, of_decide_eq_true bounds⟩
    · rintro ⟨found, bounds⟩
      obtain ⟨rest, rfl, _⟩ := between_append_iff.mp bounds
      obtain ⟨e, inEntries, same⟩ := (indexed.mem_iff rest value).mp found
      have key : e.key address = address ++ rest := congrArg Prod.fst same
      exact ⟨e, List.mem_filter.mpr ⟨inEntries, decide_eq_true (by rw [key]; exact bounds)⟩, same⟩

/-- The store that holds just these entries. -/
def storeOf (address : Bytes) (entries : List IndexEntry) (key : Bytes) : Option Bytes :=
  (entries.find? fun e => e.key address = key).map fun e => amendValue e.blockHash e.delta

theorem indexed_storeOf (address : Bytes) (order : entries.Pairwise IndexEntry.Before) :
    Indexed (storeOf address entries) address entries := by
  refine ⟨order, fun rest value => ?_⟩
  have strict : (entries.map (·.key address)).Pairwise (· < ·) :=
    List.pairwise_map.mpr (order.imp fun before => key_lt_iff.mpr before)
  constructor
  · intro found
    obtain ⟨e, first, rfl⟩ := Option.map_eq_some_iff.mp found
    have key : e.key address = address ++ rest := by simpa using List.find?_some first
    exact ⟨e, List.mem_of_find?_eq_some first, Prod.ext key rfl⟩
  · rintro ⟨e, member, same⟩
    cases found : entries.find? fun e => decide (e.key address = address ++ rest) with
    | none =>
      have different : e.key address ≠ address ++ rest := by simpa using List.find?_eq_none.mp found e member
      exact absurd (congrArg Prod.fst same) different
    | some other =>
      have atKey : other.key address = address ++ rest := by simpa using List.find?_some found
      have key := atKey.trans (congrArg Prod.fst same).symm
      have one : other = e := List.inj_on_of_nodup_map (strict.imp ne_of_lt) (List.mem_of_find?_eq_some found) member key
      rw [storeOf, found, one]
      exact congrArg some (congrArg Prod.snd same)

theorem exists_iterate (address : Bytes) (entries : List IndexEntry) :
    ∃ iterate : Bytes → Bytes → List (Bytes × Bytes),
      ∀ lower upper, Lists (storeOf address entries) lower upper (iterate lower upper) := by
  refine Classical.skolem.mp fun lower => Classical.skolem.mp fun upper => ?_
  refine @exists_lists _ _ _ _ lower upper (entries.map (·.key address)) fun key present => ?_
  obtain ⟨value, found⟩ := Option.ne_none_iff_exists'.mp present
  obtain ⟨e, first, _⟩ := Option.map_eq_some_iff.mp found
  exact List.mem_map.mpr ⟨e, List.mem_of_find?_eq_some first, by simpa using List.find?_some first⟩

/-- The query for an interval leaves out the time at which it starts, and a limit of zero is
no limit. -/
theorem getAddressEntires_eq (indexed : Indexed store address entries)
    (iterates : ∀ lower upper, Lists store lower upper (iterate lower upper)) :
    getAddressEntires iterate address fromTimestamp toTimestamp limit =
      .ok (shown limit ((newer fromTimestamp toTimestamp entries).map (·.toAddressEntry))) := by
  have between : (entries.filter fun e => decide (address ++ beBytes 8 (2 ^ 64 - 1 - toTimestamp.toNat) ≤ e.key address ∧
      e.key address < address ++ beBytes 8 (2 ^ 64 - 1 - fromTimestamp.toNat))) = newer fromTimestamp toTimestamp entries := by
    refine List.filter_congr fun e _ => decide_eq_decide.mpr ?_
    rw [← not_lt, key_lt_bound, key_lt_bound, UInt64.not_lt, and_comm]
  rw [getAddressEntires, indexed.iterate_eq iterates, between,
    addressEntires_eq (holdings_items _) (Nat.eq_zero_or_pos limit), List.nil_append]
  rfl

/-! The closed interval. -/

/-- The entries at the start of the interval are its last ones. -/
theorem within_eq (order : entries.Pairwise IndexEntry.Before) (ordered : fromTimestamp ≤ toTimestamp) :
    within fromTimestamp toTimestamp entries =
      newer fromTimestamp toTimestamp entries ++ entries.filter fun e => e.timestamp = fromTimestamp := by
  induction entries with
  | nil => rfl
  | cons e entries ih =>
    obtain ⟨least, order⟩ := List.pairwise_cons.mp order
    replace ih := ih order
    rw [within, newer] at ih ⊢
    simp only [UInt64.lt_iff_toNat_lt, UInt64.le_iff_toNat_le, ← UInt64.toNat_inj] at ih ordered ⊢
    rcases Nat.lt_trichotomy fromTimestamp.toNat e.timestamp.toNat with above | same | below
    · by_cases inside : e.timestamp.toNat ≤ toTimestamp.toNat
      · rw [List.filter_cons_of_pos (by rw [decide_eq_true_eq]; omega),
          List.filter_cons_of_pos (by rw [decide_eq_true_eq]; omega),
          List.filter_cons_of_neg (by rw [decide_eq_true_eq]; omega), ih, List.cons_append]
      · rw [List.filter_cons_of_neg (by rw [decide_eq_true_eq]; omega),
          List.filter_cons_of_neg (by rw [decide_eq_true_eq]; omega),
          List.filter_cons_of_neg (by rw [decide_eq_true_eq]; omega), ih]
    · -- nothing behind it is newer
      have none : (entries.filter fun e => decide (fromTimestamp.toNat < e.timestamp.toNat ∧
          e.timestamp.toNat ≤ toTimestamp.toNat)) = [] := by
        refine List.filter_eq_nil_iff.mpr fun other member both => ?_
        have newer := (of_decide_eq_true both).1
        rcases least other member with older | ⟨tie, _⟩
        · exact absurd (UInt64.lt_iff_toNat_lt.mp older) (by omega)
        · exact absurd (congrArg UInt64.toNat tie) (by omega)
      rw [none, List.nil_append] at ih
      rw [List.filter_cons_of_pos (by rw [decide_eq_true_eq]; omega),
        List.filter_cons_of_neg (by rw [decide_eq_true_eq]; omega), none,
        List.filter_cons_of_pos (by rw [decide_eq_true_eq]; omega), ih, List.nil_append]
    · rw [List.filter_cons_of_neg (by rw [decide_eq_true_eq]; omega),
        List.filter_cons_of_neg (by rw [decide_eq_true_eq]; omega),
        List.filter_cons_of_neg (by rw [decide_eq_true_eq]; omega), ih]

/-- The query returns the first entries of the closed interval exactly if the start of the
interval is not reached, or nothing is stored there, and the limit is not zero or there is
nothing to return. -/
theorem getAddressEntires_iff (indexed : Indexed store address entries)
    (iterates : ∀ lower upper, Lists store lower upper (iterate lower upper)) (ordered : fromTimestamp ≤ toTimestamp)
    (limit : Nat) :
    getAddressEntires iterate address fromTimestamp toTimestamp limit =
        .ok (((within fromTimestamp toTimestamp entries).take limit).map (·.toAddressEntry)) ↔
      if limit = 0 then newer fromTimestamp toTimestamp entries = []
      else (∀ e ∈ entries, e.timestamp ≠ fromTimestamp) ∨ limit ≤ (newer fromTimestamp toTimestamp entries).length := by
  rw [getAddressEntires_eq indexed iterates, within_eq indexed.order ordered, Outcome.ok.injEq, shown]
  by_cases unlimited : limit = 0
  · rw [if_pos unlimited, if_pos unlimited, unlimited, List.take_zero, List.map_nil, List.map_eq_nil_iff]
  rw [if_neg unlimited, if_neg unlimited, ← List.map_take]
  have nothing : (entries.filter fun e => e.timestamp = fromTimestamp) = [] ↔ ∀ e ∈ entries, e.timestamp ≠ fromTimestamp := by
    rw [List.filter_eq_nil_iff]
    simp only [decide_eq_true_eq, ne_eq]
  rw [← nothing]
  constructor
  · intro same
    have length := congrArg List.length same
    rw [List.length_map, List.length_map, List.length_take, List.length_take, List.length_append] at length
    rw [← List.length_eq_zero_iff]
    omega
  · rintro (none | full)
    · rw [none, List.append_nil]
    · rw [List.take_append_of_le_length full]

def entryAt (timestamp : UInt64) : IndexEntry :=
  ⟨⟨ByteArr.fill 32 7, ByteArr.fill 32 8, 50⟩, timestamp⟩

theorem entries_ordered : [entryAt 7, entryAt 5].Pairwise IndexEntry.Before := by
  refine .cons (fun e member => ?_) (List.pairwise_singleton _ _)
  rw [List.mem_singleton.mp member]
  exact Or.inl (by decide)

theorem getAddressEntires_iff_newer :
    ∃ iterate : Bytes → Bytes → List (Bytes × Bytes),
      (∀ lower upper, Lists (storeOf shortKey [entryAt 7, entryAt 5]) lower upper (iterate lower upper)) ∧
      (getAddressEntires iterate shortKey 5 10 1 =
          .ok (((within 5 10 [entryAt 7, entryAt 5]).take 1).map (·.toAddressEntry)) ↔
        if 1 = 0 then newer 5 10 [entryAt 7, entryAt 5] = []
        else (∀ e ∈ [entryAt 7, entryAt 5], e.timestamp ≠ 5) ∨ 1 ≤ (newer 5 10 [entryAt 7, entryAt 5]).length) := by
  obtain ⟨iterate, iterates⟩ := exists_iterate shortKey [entryAt 7, entryAt 5]
  exact ⟨iterate, iterates, getAddressEntires_iff (indexed_storeOf shortKey entries_ordered) iterates (by decide) 1⟩

/-- An entry at the start of the interval is not returned. -/
theorem getAddressEntires_fails :
    ¬ ∀ (store : Bytes → Option Bytes) (iterate : Bytes → Bytes → List (Bytes × Bytes)) (address : Bytes)
      (entries : List IndexEntry) (fromTimestamp toTimestamp : UInt64) (limit : Nat), Indexed store address entries →
        (∀ lower upper, Lists store lower upper (iterate lower upper)) → fromTimestamp ≤ toTimestamp →
          getAddressEntires iterate address fromTimestamp toTimestamp limit =
            .ok (((within fromTimestamp toTimestamp entries).take limit).map (·.toAddressEntry)) := by
  intro claim
  obtain ⟨iterate, iterates⟩ := exists_iterate shortKey [entryAt 5]
  have indexed := indexed_storeOf shortKey (List.pairwise_singleton IndexEntry.Before (entryAt 5))
  have same := claim _ iterate shortKey _ 5 10 50 indexed iterates (by decide)
  rw [getAddressEntires_eq indexed iterates] at same
  cases same

end Bitlens

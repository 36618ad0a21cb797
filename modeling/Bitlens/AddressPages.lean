import Bitlens.AddressRange

namespace Bitlens
open Lib

/-- `get_address_entires_continue`. The iterator is moved on by one item after the seek,
whatever it has found. -/
def getAddressEntiresContinue (iterate : Bytes → Bytes → List (Bytes × Bytes)) (address : Bytes) (afterTx : Hash)
    (afterTimestamp : UInt64) (limit : Nat) : Outcome (List AddressEntry) :=
  let start := address ++ beBytes 8 (2 ^ 64 - 1 - afterTimestamp.toNat) ++ afterTx.1
  let stop := address ++ beBytes 8 (2 ^ 64 - 1)
  addressEntires (address.length + 8 + 32) limit (iterate start stop).tail []

section Pages

variable (p : Profile) (iterate : Bytes → Bytes → List (Bytes × Bytes)) (address : Bytes) (limit : Nat)

/-- The pages behind a cursor, each requested with the last entry of the one before it; an
empty page ends them. -/
inductive PagesAfter : IndexEntry → List (List IndexEntry) → Prop
  | stop {cursor : IndexEntry}
      (empty : getAddressEntiresContinue iterate address cursor.txHash cursor.timestamp limit = .ok []) :
      PagesAfter cursor []
  | next {cursor last : IndexEntry} {page : List IndexEntry} {pages : List (List IndexEntry)}
      (returned : getAddressEntiresContinue iterate address cursor.txHash cursor.timestamp limit =
        .ok (page.map (·.toAddressEntry)))
      (ends : page.getLast? = some last) (rest : PagesAfter last pages) : PagesAfter cursor (page :: pages)

/-- All pages of an address: the first one comes with its totals. -/
def AllPages (pages : List (List IndexEntry)) : Prop :=
  ∃ data, getTopAddressData p iterate address limit = .ok data ∧
    match pages with
    | [] => data.transactions = []
    | page :: rest => data.transactions = page.map (·.toAddressEntry) ∧
        ∃ last, page.getLast? = some last ∧ PagesAfter iterate address limit last rest

end Pages

variable {p : Profile} {store : Bytes → Option Bytes} {iterate : Bytes → Bytes → List (Bytes × Bytes)} {address : Bytes}
  {entries front back : List IndexEntry} {last : IndexEntry} {limit : Nat}

/-- No entry is at the time zero, which the ranges leave out. -/
def Timed (entries : List IndexEntry) : Prop :=
  ∀ e ∈ entries, 0 < e.timestamp

theorem key_lt_end {e : IndexEntry} : e.key address < address ++ beBytes 8 (2 ^ 64 - 1) ↔ 0 < e.timestamp :=
  key_lt_bound 0

theorem start_le_key {e : IndexEntry} : address ++ beBytes 8 0 ≤ e.key address := by
  rw [← not_lt, key_lt_iff_lt (by decide)]
  exact Nat.not_lt_zero _

/-- The whole range of an address holds all its entries. -/
theorem addressItems_eq (indexed : Indexed store address entries)
    (iterates : ∀ lower upper, Lists store lower upper (iterate lower upper)) (timed : Timed entries) :
    addressItems iterate address = entries.map (·.item address) := by
  rw [addressItems, indexed.iterate_eq iterates, List.filter_eq_self.mpr fun e member => decide_eq_true ?_]
  exact ⟨start_le_key, key_lt_end.mpr (timed e member)⟩

/-- The seek finds the entry of the cursor, and what follows is all that is older. -/
theorem iterate_cursor (indexed : Indexed store address (front ++ last :: back))
    (iterates : ∀ lower upper, Lists store lower upper (iterate lower upper)) (timed : Timed (front ++ last :: back)) :
    iterate (last.key address) (address ++ beBytes 8 (2 ^ 64 - 1)) = (last :: back).map (·.item address) := by
  have range := indexed.iterate_eq iterates (beBytes 8 (2 ^ 64 - 1 - last.timestamp.toNat) ++ last.txHash.1)
    (beBytes 8 (2 ^ 64 - 1))
  have start : last.key address = address ++ (beBytes 8 (2 ^ 64 - 1 - last.timestamp.toNat) ++ last.txHash.1) :=
    List.append_assoc _ _ _
  rw [← start] at range
  obtain ⟨_, order, across⟩ := List.pairwise_append.mp indexed.order
  have older := (List.pairwise_cons.mp order).1
  have before : front.filter (fun e => decide (last.key address ≤ e.key address ∧
      e.key address < address ++ beBytes 8 (2 ^ 64 - 1))) = [] := by
    refine List.filter_eq_nil_iff.mpr fun e member both => ?_
    have below : e.key address < last.key address := key_lt_iff.mpr (across e member last List.mem_cons_self)
    exact absurd (of_decide_eq_true both).1 (not_le.mpr below)
  have behind : (last :: back).filter (fun e => decide (last.key address ≤ e.key address ∧
      e.key address < address ++ beBytes 8 (2 ^ 64 - 1))) = last :: back := by
    refine List.filter_eq_self.mpr fun e member => decide_eq_true ⟨?_, key_lt_end.mpr ?_⟩
    · rcases List.mem_cons.mp member with rfl | later
      · exact le_rfl
      · exact (key_lt_iff.mpr (older e later)).le
    · exact timed e (List.mem_append_right _ member)
  rw [range, List.filter_append, before, behind, List.nil_append]

theorem getAddressEntiresContinue_eq (indexed : Indexed store address (front ++ last :: back))
    (iterates : ∀ lower upper, Lists store lower upper (iterate lower upper)) (timed : Timed (front ++ last :: back))
    (positive : 0 < limit) :
    getAddressEntiresContinue iterate address last.txHash last.timestamp limit =
      .ok ((back.take limit).map (·.toAddressEntry)) := by
  have found := iterate_cursor indexed iterates timed
  rw [IndexEntry.key, amendKey] at found
  rw [getAddressEntiresContinue, found, List.map_cons, List.tail_cons,
    addressEntires_eq (holdings_items back) (Or.inr positive), List.nil_append, shown, if_neg, List.map_take]
  · rfl
  · exact Nat.ne_of_gt positive

/-- The pages behind a cursor are all that is behind its entry, in pieces. -/
theorem exists_pagesAfter (indexed : Indexed store address (front ++ last :: back))
    (iterates : ∀ lower upper, Lists store lower upper (iterate lower upper)) (timed : Timed (front ++ last :: back))
    (positive : 0 < limit) : ∃ pages, PagesAfter iterate address limit last pages ∧ pages.flatten = back := by
  induction size : back.length using Nat.strong_induction_on generalizing front last back with
  | _ n ih =>
    have returned := getAddressEntiresContinue_eq indexed iterates timed positive
    rcases List.eq_nil_or_concat (back.take limit) with none | ⟨init, next, page⟩
    · have nothing : back = [] := by
        rcases List.take_eq_nil_iff.mp none with zero | nothing
        · exact absurd zero (Nat.ne_of_gt positive)
        · exact nothing
      rw [none] at returned
      exact ⟨[], .stop returned, nothing.symm⟩
    · rw [List.concat_eq_append] at page
      have split : front ++ last :: back = (front ++ last :: init) ++ next :: back.drop limit := by
        calc front ++ last :: back = front ++ last :: (back.take limit ++ back.drop limit) := by rw [List.take_append_drop]
          _ = _ := by simp only [page, List.append_assoc, List.cons_append, List.nil_append]
      have shorter : (back.drop limit).length < n := by
        have some := congrArg List.length page
        rw [List.length_take, List.length_append, List.length_singleton] at some
        rw [List.length_drop]
        omega
      rw [split] at indexed timed
      obtain ⟨pages, rest, flat⟩ := ih _ shorter indexed timed rfl
      have ends : (back.take limit).getLast? = some next := by rw [page, List.getLast?_append, List.getLast?_singleton]; rfl
      refine ⟨back.take limit :: pages, .next returned ends rest, ?_⟩
      rw [List.flatten_cons, flat, List.take_append_drop]

/-- The pages of an address are its entries in order, each once, whenever the first page
comes; in a build with overflow checks it comes if the totals fit and each negative change
can be negated. -/
theorem allPages_iff (indexed : Indexed store address entries)
    (iterates : ∀ lower upper, Lists store lower upper (iterate lower upper)) (timed : Timed entries) (positive : 0 < limit) :
    (∃ pages, AllPages p iterate address limit pages ∧ pages.flatten = entries) ↔
      (p = .dev → Negatable (entries.map (·.item address)) ∧ TotalsFit (entries.map (·.item address))) := by
  have items := addressItems_eq indexed iterates timed
  have holdings := @holdings_items address entries
  rw [← items] at holdings ⊢
  constructor
  · rintro ⟨pages, ⟨data, returned, _⟩, _⟩ rfl
    exact fits_of_getTopAddressData holdings returned
  · intro fits
    obtain ⟨data, returned, first⟩ : ∃ data, getTopAddressData p iterate address limit = .ok data ∧
        data.transactions = (entries.take limit).map (·.toAddressEntry) := by
      rw [List.map_take]
      cases p with
      | dev =>
        obtain ⟨data, returned, first, _⟩ := getTopAddressData_ok holdings (fun _ => (fits rfl).1) (fits rfl).2 limit
        exact ⟨data, returned, first⟩
      | release => exact getTopAddressData_release holdings limit
    rcases List.eq_nil_or_concat (entries.take limit) with none | ⟨init, last, page⟩
    · have nothing : entries = [] := by
        rcases List.take_eq_nil_iff.mp none with zero | nothing
        · exact absurd zero (Nat.ne_of_gt positive)
        · exact nothing
      rw [none] at first
      exact ⟨[], ⟨data, returned, first⟩, nothing.symm⟩
    · rw [List.concat_eq_append] at page
      have split : entries = init ++ last :: entries.drop limit := by
        calc entries = entries.take limit ++ entries.drop limit := (List.take_append_drop limit entries).symm
          _ = _ := by rw [page, List.append_assoc, List.singleton_append]
      have indexed' := indexed
      rw [split] at indexed' timed
      obtain ⟨pages, rest, flat⟩ := exists_pagesAfter indexed' iterates timed positive
      have ends : (entries.take limit).getLast? = some last := by rw [page, List.getLast?_append, List.getLast?_singleton]; rfl
      refine ⟨entries.take limit :: pages, ⟨data, returned, first, last, ends, rest⟩, ?_⟩
      rw [List.flatten_cons, flat, List.take_append_drop]

theorem allPages_iff_two :
    ∃ iterate : Bytes → Bytes → List (Bytes × Bytes),
      (∀ lower upper, Lists (storeOf shortKey [entryAt 7, entryAt 5]) lower upper (iterate lower upper)) ∧
        ((∃ pages, AllPages .release iterate shortKey 1 pages ∧ pages.flatten = [entryAt 7, entryAt 5]) ↔
          (Profile.release = .dev → Negatable ([entryAt 7, entryAt 5].map (·.item shortKey)) ∧
            TotalsFit ([entryAt 7, entryAt 5].map (·.item shortKey)))) := by
  obtain ⟨iterate, iterates⟩ := exists_iterate shortKey [entryAt 7, entryAt 5]
  have timed : Timed [entryAt 7, entryAt 5] := by
    intro e member
    rcases List.mem_pair.mp member with rfl | rfl <;> decide
  exact ⟨iterate, iterates, allPages_iff (indexed_storeOf shortKey entries_ordered) iterates timed Nat.one_pos⟩

/-- The least change cannot be negated, so with overflow checks there is no first page. -/
theorem allPages_fails :
    ¬ ∀ (p : Profile) (store : Bytes → Option Bytes) (iterate : Bytes → Bytes → List (Bytes × Bytes)) (address : Bytes)
      (entries : List IndexEntry) (limit : Nat), Indexed store address entries →
        (∀ lower upper, Lists store lower upper (iterate lower upper)) → Timed entries → 0 < limit →
          ∃ pages, AllPages p iterate address limit pages ∧ pages.flatten = entries := by
  intro claim
  let least : IndexEntry := { entryAt 5 with delta := Int64.minValue }
  obtain ⟨iterate, iterates⟩ := exists_iterate shortKey [least]
  have indexed := indexed_storeOf shortKey (List.pairwise_singleton IndexEntry.Before least)
  have timed : Timed [least] := by
    intro e member
    rw [List.mem_singleton.mp member]
    decide
  obtain ⟨pages, ⟨data, returned, _⟩, _⟩ := claim .dev _ iterate shortKey _ 50 indexed iterates timed (by decide)
  have items := addressItems_eq indexed iterates timed
  have holdings := @holdings_items shortKey [least]
  rw [← items] at holdings
  have negatable := (fits_of_getTopAddressData holdings returned).1
  rw [items] at negatable
  have holding : Holding shortKey.length (least.item shortKey) least.toAddressEntry := holding_item
  exact negatable _ List.mem_cons_self holding.delta.symm

end Bitlens

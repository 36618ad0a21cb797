import Bitlens.HeaderOrigin

namespace Bitlens
open Lib

/-- Rows that some run has inserted: each is placed by its hash. -/
def RowsPlaced (headers : List BlockHeaderOwned) (rows : List HeaderRow) : Prop :=
  ∀ row ∈ rows, ∃ total, Placed headers row.header row.blockNumber total

/-- What a scan of `rows` reports, where `totals` and `fetched` were known before it. -/
structure Scanned (headers : List BlockHeaderOwned) (totals : Hash → Option Nat) (fetched : Finset Hash)
    (rows : List HeaderRow) (reported : List BlockHeaderWithNumber) : Prop where
  hashes : (reported.map (·.header.hash)).Sublist (rows.map (·.blockHash))
  placed : ∀ r ∈ reported, r.header = r.header.columns ∧ Placed headers r.header r.number r.totalWork
  parents : ∀ r ∈ reported, (totals r.header.parent).isSome ∨ ∃ q ∈ reported, q.header.hash = r.header.parent
  flags : ∀ r ∈ reported, r.fetchedFull = true → r.header.parent ∈ fetched ∨
    ∃ q ∈ reported, q.header.hash = r.header.parent ∧ q.fetchedFull = true

variable {headers : List BlockHeaderOwned} {rows ordered : List HeaderRow} {row : HeaderRow}
  {reported : List BlockHeaderWithNumber} {totals : Hash → Option Nat} {fetched : Finset Hash}

/-- The record that the row mapper builds. -/
def HeaderRow.record (row : HeaderRow) (flag : Bool) (total : Nat) : BlockHeaderWithNumber where
  header := row.header
  number := row.blockNumber
  fetchedFull := flag
  totalWork := total
  coinbaseAscii := if flag then row.coinbaseAscii.map fromUtf8Lossy else none

/-- Whether a row counts as fetched. -/
def HeaderRow.flag (row : HeaderRow) (fetched : Finset Hash) : Bool :=
  decide (row.previousBlock ∈ fetched) && row.fetchedFull

def HeaderRow.fetchedWith (row : HeaderRow) (fetched : Finset Hash) : Finset Hash :=
  if row.flag fetched then insert row.blockHash fetched else fetched

theorem getAllHeadersLoop_of_orphan (orphan : totals row.previousBlock = none) :
    getAllHeadersLoop totals fetched (row :: rows) = getAllHeadersLoop totals fetched rows := by
  rw [getAllHeadersLoop, orphan]

/-- One row whose parent's work is known. -/
theorem getAllHeadersLoop_of_parent {parentWork work total : Nat} (atParent : totals row.previousBlock = some parentWork)
    (ofBits : getWork row.bits = .ok work) (sum : u256Add parentWork work = .ok total) :
    getAllHeadersLoop totals fetched (row :: rows) =
      (getAllHeadersLoop (mapInsert totals row.blockHash total) (row.fetchedWith fetched) rows >>= fun rest =>
        .ok (row.record (row.flag fetched) total :: rest)) := by
  rw [getAllHeadersLoop, atParent]
  dsimp only
  rw [ofBits, Outcome.ok_bind, sum, Outcome.ok_bind]
  rfl

/-- The step of the scan: a row of the run is dropped, or reported with its own total. -/
theorem Distinct.scan_cases (distinct : Distinct headers) (fetched : Finset Hash) (rows : List HeaderRow) {total : Nat}
    (placed : Placed headers row.header row.blockNumber total)
    (known : ∀ hash before, totals hash = some before → Totals headers hash before) :
    (totals row.previousBlock = none ∧
        getAllHeadersLoop totals fetched (row :: rows) = getAllHeadersLoop totals fetched rows) ∨
      ((totals row.previousBlock).isSome ∧ getAllHeadersLoop totals fetched (row :: rows) =
        (getAllHeadersLoop (mapInsert totals row.blockHash total) (row.fetchedWith fetched) rows >>= fun rest =>
          .ok (row.record (row.flag fetched) total :: rest))) := by
  cases atParent : totals row.previousBlock with
  | none => exact Or.inl ⟨rfl, getAllHeadersLoop_of_orphan atParent⟩
  | some parentWork =>
    obtain ⟨work, ofBits, sum⟩ := placed.sum distinct (known _ _ atParent)
    exact Or.inr ⟨rfl, getAllHeadersLoop_of_parent atParent ofBits sum⟩

theorem Distinct.totals_insert {total : Nat} (placed : Placed headers row.header row.blockNumber total)
    (known : ∀ hash before, totals hash = some before → Totals headers hash before) (hash : Hash) (before : Nat)
    (found : mapInsert totals row.blockHash total hash = some before) : Totals headers hash before := by
  by_cases same : hash = row.blockHash
  · rw [same, mapInsert_self] at found
    cases found
    exact Or.inr ⟨row.header, row.blockNumber, same.symm, placed⟩
  · rw [mapInsert_of_ne same] at found
    exact known hash before found

theorem Scanned.cons_orphan (scanned : Scanned headers totals fetched rows reported) :
    Scanned headers totals fetched (row :: rows) reported :=
  ⟨scanned.hashes.cons _, scanned.placed, scanned.parents, scanned.flags⟩

theorem Scanned.cons {total : Nat} (placed : Placed headers row.header row.blockNumber total)
    (available : (totals row.previousBlock).isSome)
    (scanned : Scanned headers (mapInsert totals row.blockHash total) (row.fetchedWith fetched) rows reported) :
    Scanned headers totals fetched (row :: rows) (row.record (row.flag fetched) total :: reported) := by
  refine ⟨scanned.hashes.cons_cons _, fun r member => ?_, fun r member => ?_, fun r member raised => ?_⟩
  · rcases List.mem_cons.mp member with same | later
    · rw [same]
      exact ⟨rfl, placed⟩
    · exact scanned.placed r later
  · rcases List.mem_cons.mp member with same | later
    · rw [same]
      exact Or.inl available
    · rcases scanned.parents r later with found | ⟨q, inRest, name⟩
      · by_cases own : r.header.parent = row.blockHash
        · exact Or.inr ⟨_, List.mem_cons_self, own.symm⟩
        · rw [mapInsert_of_ne own] at found
          exact Or.inl found
      · exact Or.inr ⟨q, List.mem_cons_of_mem _ inRest, name⟩
  · rcases List.mem_cons.mp member with same | later
    · rw [same] at raised ⊢
      exact Or.inl (of_decide_eq_true (Bool.and_eq_true_iff.mp raised).1)
    · rcases scanned.flags r later raised with inSet | ⟨q, inRest, name⟩
      · unfold HeaderRow.fetchedWith at inSet
        split at inSet
        · next own =>
          rcases Finset.mem_insert.mp inSet with same | old
          · exact Or.inr ⟨_, List.mem_cons_self, same.symm, own⟩
          · exact Or.inl old
        · exact Or.inl inSet
      · exact Or.inr ⟨q, List.mem_cons_of_mem _ inRest, name⟩

/-- The scan returns on the rows of a run, whatever rows are missing. -/
theorem Distinct.getAllHeadersLoop (distinct : Distinct headers) (fetched : Finset Hash) (placed : RowsPlaced headers rows)
    (known : ∀ hash before, totals hash = some before → Totals headers hash before) :
    ∃ reported, getAllHeadersLoop totals fetched rows = .ok reported ∧
      Scanned headers totals fetched rows reported := by
  induction rows generalizing totals fetched with
  | nil => exact ⟨[], rfl, List.Sublist.refl _, by simp, by simp, by simp⟩
  | cons row rows ih =>
    obtain ⟨total, own⟩ := placed row List.mem_cons_self
    have rest : RowsPlaced headers rows := fun other member => placed other (List.mem_cons_of_mem _ member)
    rcases distinct.scan_cases fetched rows own known with ⟨_, dropped⟩ | ⟨available, step⟩
    · obtain ⟨reported, result, scanned⟩ := ih fetched rest known
      exact ⟨reported, dropped.trans result, scanned.cons_orphan⟩
    · obtain ⟨reported, result, scanned⟩ := ih (row.fetchedWith fetched) rest (Distinct.totals_insert own known)
      rw [step, result]
      exact ⟨_, rfl, scanned.cons own available⟩

/-- Rows whose parents come earlier in the scan are all reported. -/
theorem Distinct.getAllHeadersLoop_complete (distinct : Distinct headers) (placed : RowsPlaced headers rows)
    (known : ∀ hash before, totals hash = some before → Totals headers hash before)
    (sorted : rows.Pairwise fun a b => a.blockNumber ≤ b.blockNumber) (good : HeaderRow → Prop)
    (available : ∀ row ∈ rows, good row → (totals row.previousBlock).isSome ∨
      ∃ g ∈ rows, good g ∧ g.blockHash = row.previousBlock ∧ g.blockNumber < row.blockNumber)
    (result : Bitlens.getAllHeadersLoop totals fetched rows = .ok reported) (member : row ∈ rows) (loadable : good row) :
    ∃ r ∈ reported, r.header = row.header ∧ r.number = row.blockNumber := by
  induction rows generalizing totals fetched reported with
  | nil => cases member
  | cons first rows ih =>
    obtain ⟨total, own⟩ := placed first List.mem_cons_self
    have rest : RowsPlaced headers rows := fun other member => placed other (List.mem_cons_of_mem _ member)
    obtain ⟨lowest, sorted⟩ := List.pairwise_cons.mp sorted
    have head : good first → (totals first.previousBlock).isSome := by
      intro goodFirst
      rcases available first List.mem_cons_self goodFirst with found | ⟨g, inRows, _, _, below⟩
      · exact found
      · rcases List.mem_cons.mp inRows with same | later
        · rw [same] at below
          omega
        · have := lowest g later
          omega
    rcases distinct.scan_cases fetched rows own known with ⟨orphan, dropped⟩ | ⟨_, step⟩
    · have bad : ¬ good first := by
        intro goodFirst
        have found := head goodFirst
        rw [orphan] at found
        cases found
      rcases List.mem_cons.mp member with same | later
      · rw [same] at loadable
        exact absurd loadable bad
      · refine ih rest known sorted (fun other inRows goodOther => ?_) (dropped.symm.trans result) later
        rcases available other (List.mem_cons_of_mem _ inRows) goodOther with found | ⟨g, inAll, goodG, link⟩
        · exact Or.inl found
        · rcases List.mem_cons.mp inAll with same | inRest
          · rw [same] at goodG
            exact absurd goodG bad
          · exact Or.inr ⟨g, inRest, goodG, link⟩
    · rw [step] at result
      obtain ⟨tail, atTail, shape⟩ := Outcome.bind_eq_ok.mp result
      cases shape
      rcases List.mem_cons.mp member with same | later
      · rw [same]
        exact ⟨_, List.mem_cons_self, rfl, rfl⟩
      · obtain ⟨r, inTail, same⟩ := ih rest (Distinct.totals_insert own known) sorted (fun other inRows goodOther => by
          rcases available other (List.mem_cons_of_mem _ inRows) goodOther with found | ⟨g, inAll, goodG, link⟩
          · exact Or.inl (mapInsert_isSome_of (Or.inr found))
          · rcases List.mem_cons.mp inAll with same | inRest
            · rw [← link.1, same]
              exact Or.inl (mapInsert_isSome_of (Or.inl rfl))
            · exact Or.inr ⟨g, inRest, goodG, link⟩) atTail later
        exact ⟨r, List.mem_cons_of_mem _ inTail, same⟩

end Bitlens

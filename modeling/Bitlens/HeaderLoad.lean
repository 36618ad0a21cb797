import Bitlens.HeaderTable
import Bitlens.Marking
import Bitlens.HeaderStep

namespace Bitlens
open Lib

namespace Chain

variable {c : Chain}

/-- Every header's height and total work continue those of its parent; the parent
of a root is the empty hash, which is no header's hash. -/
structure Lineage (c : Chain) : Prop where
  keyed : ∀ hash b, c.knownHeaders hash = some b → b.header.hash = hash
  noEmpty : c.knownHeaders emptyHash = none
  ancestry : ∀ hash b, c.knownHeaders hash = some b → ∃ parentWork work, getWork b.header.bits = .ok work ∧
    u256Add parentWork work = .ok b.totalWork ∧
      ((b.number = 0 ∧ b.header.parent = emptyHash ∧ parentWork = 0) ∨
        ∃ q, c.knownHeaders b.header.parent = some q ∧ b.number = q.number + 1 ∧ parentWork = q.totalWork)

theorem Lineage.parents (lineage : c.Lineage) (hash : Hash) (b : BlockHeaderWithNumber)
    (stored : c.knownHeaders hash = some b) (positive : b.number ≠ 0) :
    ∃ q, c.knownHeaders b.header.parent = some q ∧ b.number = q.number + 1 := by
  obtain ⟨_, _, _, _, ⟨zero, _⟩ | ⟨q, atParent, step, _⟩⟩ := lineage.ancestry hash b stored
  · exact absurd zero positive
  · exact ⟨q, atParent, step⟩

theorem Lineage.ne_empty (lineage : c.Lineage) {hash : Hash} (known : c.Known hash) : hash ≠ emptyHash := by
  rintro rfl
  simp [Known, lineage.noEmpty] at known

/-- A parent is the empty hash exactly when it is no parent pointer. -/
theorem Lineage.parent_cases (lineage : c.Lineage) {hash : Hash} {b : BlockHeaderWithNumber}
    (stored : c.knownHeaders hash = some b) :
    (b.header.parent = emptyHash ∧ c.parentOf hash = none) ∨
      (c.Known b.header.parent ∧ c.parentOf hash = some b.header.parent) := by
  rw [parentOf_of_known stored]
  obtain ⟨_, _, _, _, ⟨zero, root, _⟩ | ⟨q, atParent, step, _⟩⟩ := lineage.ancestry hash b stored
  · exact Or.inl ⟨root, if_pos zero⟩
  · exact Or.inr ⟨by simp [Known, atParent], if_neg (by omega)⟩

/-- Each row is a known header as it was inserted. -/
def Records (c : Chain) (rows : List HeaderRow) : Prop :=
  ∀ row ∈ rows, ∃ b, c.knownHeaders row.blockHash = some b ∧ b.request = row.request

/-- What `get_all_headers` reports for a row, up to the flag. -/
def Reports (c : Chain) (row : HeaderRow) (r : BlockHeaderWithNumber) : Prop :=
  r.request = row.request ∧ (r.fetchedFull = true → row.fetchedFull = true) ∧
    ∃ b, c.knownHeaders row.blockHash = some b ∧ r.totalWork = b.totalWork

/-- What the accumulators of `get_all_headers` hold after the rows with these hashes. -/
structure Scanned (c : Chain) (fetched done : Hash → Prop) (workTotals : Hash → Option Nat)
    (parentsFetched : Finset Hash) : Prop where
  rootWork : workTotals emptyHash = some 0
  doneWork : ∀ hash, done hash → ∃ b, c.knownHeaders hash = some b ∧ workTotals hash = some b.totalWork
  rootFetched : emptyHash ∈ parentsFetched
  doneFetched : ∀ hash, done hash → fetched hash → hash ∈ parentsFetched

variable {fetched done : Hash → Prop} {workTotals : Hash → Option Nat} {parentsFetched : Finset Hash}

theorem Scanned.start : c.Scanned fetched (fun _ => False) (mapInsert (fun _ => none) emptyHash 0) {emptyHash} :=
  ⟨mapInsert_self _ _ _, fun _ impossible => impossible.elim, Finset.mem_singleton_self _,
    fun _ impossible => impossible.elim⟩

/-- A row whose flag is raised where it should be. -/
theorem Scanned.insert (scanned : c.Scanned fetched done workTotals parentsFetched) {hash : Hash}
    {b : BlockHeaderWithNumber} {actually : Bool} (stored : c.knownHeaders hash = some b) (apart : emptyHash ≠ hash)
    (raised : fetched hash → actually = true) :
    c.Scanned fetched (fun other => done other ∨ other = hash) (mapInsert workTotals hash b.totalWork)
      (if actually = true then insert hash parentsFetched else parentsFetched) where
  rootWork := by rw [mapInsert_of_ne apart, scanned.rootWork]
  doneWork := by
    intro other member
    by_cases same : other = hash
    · subst same
      exact ⟨b, stored, mapInsert_self _ _ _⟩
    · obtain ⟨b', stored', total⟩ := scanned.doneWork other (member.resolve_right same)
      exact ⟨b', stored', by rw [mapInsert_of_ne same, total]⟩
  rootFetched := by split <;> simp [scanned.rootFetched]
  doneFetched := by
    intro other member flagged
    by_cases same : other = hash
    · subst same
      simp [raised flagged]
    · have old := scanned.doneFetched other (member.resolve_right same) flagged
      split <;> simp [old]

/-- The work total of a row's parent is there. -/
theorem Scanned.parentTotal (scanned : c.Scanned fetched done workTotals parentsFetched) {hash : Hash}
    {b : BlockHeaderWithNumber} {parentWork : Nat} (stored : c.knownHeaders hash = some b)
    (below : ∀ parent, c.parentOf hash = some parent → done parent)
    (lineal : b.number = 0 ∧ b.header.parent = emptyHash ∧ parentWork = 0 ∨
      ∃ q, c.knownHeaders b.header.parent = some q ∧ b.number = q.number + 1 ∧ parentWork = q.totalWork) :
    workTotals b.header.parent = some parentWork := by
  rcases lineal with ⟨_, root, zero⟩ | ⟨q, atParent, step, total⟩
  · rw [root, scanned.rootWork, zero]
  · have edge : c.parentOf hash = some b.header.parent := by
      rw [parentOf_of_known stored, if_neg (by omega)]
    obtain ⟨q', atParent', total'⟩ := scanned.doneWork _ (below _ edge)
    rw [atParent] at atParent'
    cases atParent'
    rw [total', total]

/-- The parent of a row counts as fetched where it should. -/
theorem Scanned.parentFetched (scanned : c.Scanned fetched done workTotals parentsFetched) (lineage : c.Lineage)
    {hash : Hash} {b : BlockHeaderWithNumber} (stored : c.knownHeaders hash = some b)
    (below : ∀ parent, c.parentOf hash = some parent → done parent)
    (above : b.header.parent = emptyHash ∨ fetched b.header.parent) : b.header.parent ∈ parentsFetched := by
  rcases above with root | flagged
  · rw [root]
    exact scanned.rootFetched
  · rcases lineage.parent_cases stored with ⟨root, _⟩ | ⟨_, edge⟩
    · rw [root]
      exact scanned.rootFetched
    · exact scanned.doneFetched _ (below _ edge) flagged

/-- `get_all_headers` over rows that list parents before children: no row is
dropped, the work totals are those in memory, and a row counts as fetched when its
flag and its parent's say so. -/
theorem Lineage.getAllHeadersLoop (lineage : c.Lineage) {rows : List HeaderRow} (records : c.Records rows)
    (order : ParentsFirst c.parentOf done (rows.map (·.blockHash)))
    (scanned : c.Scanned fetched done workTotals parentsFetched)
    (flags : ∀ row ∈ rows, fetched row.blockHash →
      row.fetchedFull = true ∧ (row.previousBlock = emptyHash ∨ fetched row.previousBlock)) :
    ∃ reported, getAllHeadersLoop workTotals parentsFetched rows = .ok reported ∧
      List.Forall₂ c.Reports rows reported ∧
      (∀ r ∈ reported, r.fetchedFull = true → r.header.parent ∈ parentsFetched ∨
        ∃ q ∈ reported, q.header.hash = r.header.parent ∧ q.fetchedFull = true) ∧
      ∀ r ∈ reported, fetched r.header.hash → r.fetchedFull = true := by
  induction rows generalizing workTotals parentsFetched done with
  | nil => exact ⟨[], rfl, .nil, by simp, by simp⟩
  | cons row rows ih =>
    obtain ⟨b, stored, request⟩ := records row List.mem_cons_self
    have parent : b.header.parent = row.previousBlock := congrArg InsertHeaderRequest.parent request
    have bits : b.header.bits = row.bits := congrArg InsertHeaderRequest.bits request
    obtain ⟨parentWork, work, ofBits, sum, lineal⟩ := lineage.ancestry _ _ stored
    have parentTotal : workTotals row.previousBlock = some parentWork :=
      parent ▸ scanned.parentTotal stored order.1 lineal
    have inFetched : row.previousBlock = emptyHash ∨ fetched row.previousBlock → row.previousBlock ∈ parentsFetched :=
      parent ▸ scanned.parentFetched lineage stored order.1
    have apart : emptyHash ≠ row.blockHash := (lineage.ne_empty (by simp [Known, stored])).symm
    rw [bits] at ofBits
    rw [Bitlens.getAllHeadersLoop]
    simp only [parentTotal, ofBits, sum, Outcome.ok_bind]
    -- the row's own flag, and the set of fetched hashes after it
    generalize flag : (decide (row.previousBlock ∈ parentsFetched) && row.fetchedFull) = actually
    have raised : fetched row.blockHash → actually = true := by
      intro flagged
      obtain ⟨own, above⟩ := flags row List.mem_cons_self flagged
      rw [← flag]
      simp [own, inFetched above]
    obtain ⟨reported, result, matched, sound, complete⟩ := ih
      (fun other member => records other (List.mem_cons_of_mem _ member)) order.2 (scanned.insert stored apart raised)
      (fun other member => flags other (List.mem_cons_of_mem _ member))
    rw [result]
    refine ⟨_, rfl, .cons ⟨rfl, ?_, b, stored, rfl⟩ matched, ?_, ?_⟩
    · intro raised
      simp only at raised
      rw [← flag, Bool.and_eq_true] at raised
      exact raised.2
    · intro r member raised
      rcases List.mem_cons.mp member with same | later
      · subst same
        simp only at raised
        rw [← flag, Bool.and_eq_true, decide_eq_true_eq] at raised
        exact Or.inl raised.1
      · rcases sound r later raised with inSet | ⟨q, inRest, above⟩
        · split at inSet
          · next own =>
            rcases Finset.mem_insert.mp inSet with same | old
            · exact Or.inr ⟨_, List.mem_cons_self, same.symm, own⟩
            · exact Or.inl old
          · exact Or.inl inSet
        · exact Or.inr ⟨q, List.mem_cons_of_mem _ inRest, above⟩
    · intro r member flagged
      rcases List.mem_cons.mp member with same | later
      · subst same
        exact raised flagged
      · exact complete r later flagged

theorem Records.heightOf {rows : List HeaderRow} (records : c.Records rows) {row : HeaderRow} (member : row ∈ rows) :
    c.heightOf row.blockHash = row.blockNumber := by
  obtain ⟨b, stored, request⟩ := records row member
  rw [heightOf_of_known stored]
  exact congrArg InsertHeaderRequest.number request

/-- The order of the query lists parents first when every parent has its row. -/
theorem Lineage.selects_parentsFirst (lineage : c.Lineage) {rows ordered : List HeaderRow} (base : Hash → Prop)
    (records : c.Records rows)
    (closed : ∀ hash ∈ rows.map (·.blockHash), ∀ parent, c.parentOf hash = some parent →
      parent ∈ rows.map (·.blockHash))
    (selects : Selects rows ordered) : ParentsFirst c.parentOf base (ordered.map (·.blockHash)) := by
  obtain ⟨perm, sorted⟩ := selects
  refine parentsFirst_of_sorted c.heightOf ?_ ?_
  · rw [List.pairwise_map]
    refine sorted.imp_of_mem fun {a b} memberA memberB order => ?_
    rw [records.heightOf (perm.mem_iff.mp memberA), records.heightOf (perm.mem_iff.mp memberB)]
    exact order
  · intro hash member parent edge
    have inRows := (perm.map (·.blockHash)).mem_iff.mp member
    refine Or.inr ⟨(perm.map (·.blockHash)).mem_iff.mpr (closed hash inRows parent edge), ?_⟩
    obtain ⟨row, inTable, same⟩ := List.mem_map.mp inRows
    obtain ⟨b, stored, _⟩ := records row inTable
    have known : c.Known hash := by simp [Known, ← same, stored]
    have := (graded_of_parents lineage.parents _ _ known edge).2
    omega

/-- `get_all_headers` returns on a table whose rows are known headers and hold
their parents. -/
theorem Lineage.getAllHeaders (lineage : c.Lineage) {rows ordered : List HeaderRow} {fetched : Hash → Prop}
    (records : c.Records rows)
    (closed : ∀ hash ∈ rows.map (·.blockHash), ∀ parent, c.parentOf hash = some parent →
      parent ∈ rows.map (·.blockHash))
    (flags : ∀ row ∈ rows, fetched row.blockHash →
      row.fetchedFull = true ∧ (row.previousBlock = emptyHash ∨ fetched row.previousBlock))
    (selects : Selects rows ordered) :
    ∃ reported, Bitlens.getAllHeaders ordered = .ok reported ∧ List.Forall₂ c.Reports ordered reported ∧
      (∀ r ∈ reported, r.fetchedFull = true → r.header.parent = emptyHash ∨
        ∃ q ∈ reported, q.header.hash = r.header.parent ∧ q.fetchedFull = true) ∧
      ∀ r ∈ reported, fetched r.header.hash → r.fetchedFull = true := by
  obtain ⟨reported, result, matched, sound, complete⟩ := lineage.getAllHeadersLoop
    (fun row member => records row (selects.1.mem_iff.mp member))
    (lineage.selects_parentsFirst (fun _ => False) records closed selects) .start
    (fun row member => flags row (selects.1.mem_iff.mp member))
  refine ⟨reported, result, matched, fun r member raised => ?_, complete⟩
  exact (sound r member raised).imp_left Finset.mem_singleton.mp

end Chain

end Bitlens

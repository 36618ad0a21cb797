import Bitlens.HeaderLoad
import Bitlens.Lib.Run

namespace Bitlens
open Lib

/-- The headers in memory and on disk: the chain manager with its spawned insert
tasks, the requests the batcher holds, and the table. `marked` records the last
coinbase script given to `mark_blocks_as_downloaded` for each block. -/
structure HeaderStore where
  chainman : Chainman
  pending : List InsertHeaderRequest
  rows : List HeaderRow
  marked : Hash → Option Bytes

inductive HeaderEvent where
  | header (header : BlockHeaderOwned) (isHeadersync : Bool)
  | deliver (task : Nat)
  | flush
  | mark (blocks : List (Hash × Bytes))
  | restart (ordered : List HeaderRow)

namespace HeaderStore

/-- A new database; `setup_sqlite` has sent the genesis header to the batcher. -/
def start : HeaderStore := ⟨⟨Chain.default, 0, []⟩, [genesis.request], [], fun _ => none⟩

/-- Every request has reached the table. -/
def Flushed (s : HeaderStore) : Prop := s.chainman.inserts = [] ∧ s.pending = []

instance (s : HeaderStore) : Decidable s.Flushed := inferInstanceAs (Decidable (_ ∧ _))

/-- A header is applied, a spawned task hands its request to the batcher, the
batcher flushes, the writer marks a batch (first in the table, then in memory), or
the program is stopped with everything flushed and started again. No header hashes
to the empty hash. -/
def next (p : Profile) (s : HeaderStore) : HeaderEvent → Option HeaderStore
  | .header header isHeadersync =>
    if header.hash = emptyHash then none
    else some { s with chainman := (s.chainman.validateAndApplyHeaderInner p header isHeadersync).1 }
  | .deliver task =>
    match s.chainman.inserts[task]? with
    | none => none
    | some b =>
      some { s with
        chainman := { s.chainman with inserts := s.chainman.inserts.eraseIdx task }
        pending := s.pending ++ [b.request] }
  | .flush => some { s with rows := s.pending.foldl insertRow s.rows, pending := [] }
  | .mark blocks =>
    match s.chainman.markAsDownloaded blocks with
    | .ok chainman =>
      some { s with
        chainman := chainman
        rows := markBlocksAsDownloaded s.rows blocks
        marked := blocks.foldl (fun map block => mapInsert map block.1 block.2) s.marked }
    | _ => none
  | .restart ordered =>
    if s.Flushed ∧ Selects s.rows ordered then
      match loadHeadersFromSqlite ordered with
      | .ok chainman => some ⟨chainman, [genesis.request], s.rows, fun _ => none⟩
      | _ => none
    else none

def Step (p : Profile) (s : HeaderStore) (event : HeaderEvent) (t : HeaderStore) : Prop :=
  s.next p event = some t

/-- A block is marked when its row exists, and after its parent. -/
def Ready (s : HeaderStore) : HeaderEvent → Prop
  | .mark blocks =>
    (∀ block ∈ blocks, block.1 ∈ s.rows.map (·.blockHash)) ∧
      ParentsFirst s.chainman.chain.parentOf s.chainman.chain.Fetched (blocks.map Prod.fst)
  | _ => True

end HeaderStore

/-! What the statements do to the table. -/

theorem insertRow_subset (rows : List HeaderRow) (r : InsertHeaderRequest) {row : HeaderRow} (member : row ∈ rows) :
    row ∈ insertRow rows r := by
  unfold insertRow
  split
  · exact member
  · exact List.mem_append_left _ member

theorem mem_insertRow {rows : List HeaderRow} {r : InsertHeaderRequest} {row : HeaderRow}
    (member : row ∈ insertRow rows r) : row ∈ rows ∨ row.request = r := by
  unfold insertRow at member
  split at member
  · exact Or.inl member
  · rcases List.mem_append.mp member with old | fresh
    · exact Or.inl old
    · rw [List.mem_singleton.mp fresh]
      exact Or.inr rfl

theorem insertRow_keys (rows : List HeaderRow) (r : InsertHeaderRequest) :
    r.hash ∈ (insertRow rows r).map (·.blockHash) := by
  unfold insertRow
  split
  · next present => exact present
  · simp [InsertHeaderRequest.row]

theorem insertRows_subset (requests : List InsertHeaderRequest) (rows : List HeaderRow) {row : HeaderRow}
    (member : row ∈ rows) : row ∈ requests.foldl insertRow rows := by
  induction requests generalizing rows with
  | nil => exact member
  | cons r rest ih => exact ih _ (insertRow_subset rows r member)

theorem mem_insertRows {requests : List InsertHeaderRequest} {rows : List HeaderRow} {row : HeaderRow}
    (member : row ∈ requests.foldl insertRow rows) : row ∈ rows ∨ row.request ∈ requests := by
  induction requests generalizing rows with
  | nil => exact Or.inl member
  | cons r rest ih =>
    rcases ih member with inserted | later
    · rcases mem_insertRow inserted with old | fresh
      · exact Or.inl old
      · exact Or.inr (by simp [fresh])
    · exact Or.inr (List.mem_cons_of_mem _ later)

theorem insertRows_keys {requests : List InsertHeaderRequest} (rows : List HeaderRow) {r : InsertHeaderRequest}
    (member : r ∈ requests) : r.hash ∈ (requests.foldl insertRow rows).map (·.blockHash) := by
  induction requests generalizing rows with
  | nil => cases member
  | cons q rest ih =>
    rcases List.mem_cons.mp member with same | later
    · subst same
      obtain ⟨row, present, hash⟩ := List.mem_map.mp (insertRow_keys rows r)
      exact List.mem_map.mpr ⟨row, insertRows_subset rest _ present, hash⟩
    · exact ih _ later

theorem insertRow_nodup {rows : List HeaderRow} {r : InsertHeaderRequest} (keys : (rows.map (·.blockHash)).Nodup) :
    ((insertRow rows r).map (·.blockHash)).Nodup := by
  unfold insertRow
  split
  · exact keys
  · next absent =>
    rw [List.map_append]
    refine List.nodup_append.mpr ⟨keys, by simp, ?_⟩
    rintro hash inRows _ last rfl
    rw [List.map_singleton, List.mem_singleton] at last
    rw [last] at inRows
    exact absent inRows

theorem insertRows_nodup {requests : List InsertHeaderRequest} {rows : List HeaderRow}
    (keys : (rows.map (·.blockHash)).Nodup) : ((requests.foldl insertRow rows).map (·.blockHash)).Nodup := by
  induction requests generalizing rows with
  | nil => exact keys
  | cons r rest ih => exact ih (insertRow_nodup keys)

/-- The rows after an update, one for one. -/
theorem mem_updateRow {rows : List HeaderRow} {block : Hash × Bytes} {row : HeaderRow} :
    row ∈ updateRow rows block ↔ ∃ old ∈ rows, row = if old.blockHash = block.1
      then { old with fetchedFull := true, coinbaseAscii := some block.2 } else old := by
  simp [updateRow, eq_comm]

theorem updateRow_request {rows : List HeaderRow} {block : Hash × Bytes} {row : HeaderRow}
    (member : row ∈ updateRow rows block) : ∃ old ∈ rows, row.request = old.request := by
  obtain ⟨old, inRows, shape⟩ := mem_updateRow.mp member
  refine ⟨old, inRows, ?_⟩
  rw [shape]
  split <;> rfl

theorem markBlocks_request {blocks : List (Hash × Bytes)} {rows : List HeaderRow} {row : HeaderRow}
    (member : row ∈ markBlocksAsDownloaded rows blocks) : ∃ old ∈ rows, row.request = old.request := by
  induction blocks generalizing rows with
  | nil => exact ⟨row, member, rfl⟩
  | cons block blocks ih =>
    obtain ⟨middle, inMiddle, same⟩ := ih member
    obtain ⟨old, inRows, before⟩ := updateRow_request inMiddle
    exact ⟨old, inRows, same.trans before⟩

theorem updateRow_keys (rows : List HeaderRow) (block : Hash × Bytes) :
    (updateRow rows block).map (·.blockHash) = rows.map (·.blockHash) := by
  rw [updateRow, List.map_map]
  refine List.map_congr_left fun row _ => ?_
  simp only [Function.comp]
  split <;> rfl

theorem markBlocks_keys (blocks : List (Hash × Bytes)) (rows : List HeaderRow) :
    (markBlocksAsDownloaded rows blocks).map (·.blockHash) = rows.map (·.blockHash) := by
  induction blocks generalizing rows with
  | nil => rfl
  | cons block blocks ih => exact (ih _).trans (updateRow_keys rows block)

/-- The table keeps what it has recorded for a block, or records a later script. -/
def RowMarked (rows : List HeaderRow) (hash : Hash) (coinbaseAscii : Bytes) : Prop :=
  ∃ row ∈ rows, row.blockHash = hash ∧ row.fetchedFull = true ∧ row.coinbaseAscii = some coinbaseAscii

theorem updateRow_marked {rows : List HeaderRow} (block : Hash × Bytes) (present : block.1 ∈ rows.map (·.blockHash)) :
    RowMarked (updateRow rows block) block.1 block.2 := by
  obtain ⟨row, inRows, same⟩ := List.mem_map.mp present
  exact ⟨_, mem_updateRow.mpr ⟨row, inRows, rfl⟩, by simp [same], by simp [same], by simp [same]⟩

theorem RowMarked.updateRow {rows : List HeaderRow} {block : Hash × Bytes} {hash : Hash} {coinbaseAscii : Bytes}
    (marked : RowMarked rows hash coinbaseAscii) (other : hash ≠ block.1) :
    RowMarked (updateRow rows block) hash coinbaseAscii := by
  obtain ⟨row, inRows, same, flag, script⟩ := marked
  refine ⟨row, mem_updateRow.mpr ⟨row, inRows, ?_⟩, same, flag, script⟩
  rw [if_neg (by rw [same]; exact other)]

/-- Marks whose rows exist reach the table. -/
theorem markBlocks_marked {blocks : List (Hash × Bytes)} {rows : List HeaderRow} {marked : Hash → Option Bytes}
    (present : ∀ block ∈ blocks, block.1 ∈ rows.map (·.blockHash))
    (before : ∀ hash script, marked hash = some script → RowMarked rows hash script) {hash : Hash} {script : Bytes}
    (after : blocks.foldl (fun map block => mapInsert map block.1 block.2) marked hash = some script) :
    RowMarked (markBlocksAsDownloaded rows blocks) hash script := by
  induction blocks generalizing rows marked with
  | nil => exact before hash script after
  | cons block blocks ih =>
    refine ih ?_ ?_ after
    · intro other member
      rw [updateRow_keys]
      exact present other (List.mem_cons_of_mem _ member)
    · intro other text entry
      dsimp only at entry
      by_cases same : other = block.1
      · subst same
        rw [mapInsert_self] at entry
        cases entry
        exact updateRow_marked block (present block List.mem_cons_self)
      · rw [mapInsert_of_ne same] at entry
        exact (before other text entry).updateRow same

/-- A flag, once in the table, stays; a marked block with a row gets one. -/
theorem markBlocks_fetched {blocks : List (Hash × Bytes)} {rows : List HeaderRow} {hash : Hash}
    (raised : (∃ row ∈ rows, row.blockHash = hash ∧ row.fetchedFull = true) ∨
      (hash ∈ blocks.map Prod.fst ∧ hash ∈ rows.map (·.blockHash))) :
    ∃ row ∈ markBlocksAsDownloaded rows blocks, row.blockHash = hash ∧ row.fetchedFull = true := by
  induction blocks generalizing rows with
  | nil => exact raised.resolve_right (by simp)
  | cons block blocks ih =>
    refine ih ?_
    rw [updateRow_keys]
    rcases raised with ⟨row, inRows, same, flag⟩ | ⟨member, present⟩
    · refine Or.inl ⟨_, mem_updateRow.mpr ⟨row, inRows, rfl⟩, ?_, ?_⟩ <;> split <;> first | exact same | exact flag | rfl
    · rcases List.mem_cons.mp member with same | later
      · obtain ⟨row, inRows, hash', flag, _⟩ := updateRow_marked block (by rw [← same]; exact present)
        exact Or.inl ⟨row, inRows, by rw [hash', same], flag⟩
      · exact Or.inr ⟨later, present⟩

end Bitlens

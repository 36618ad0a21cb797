import Bitlens.HeaderScan

namespace Bitlens
open Lib

/-- A row whose ancestors are all in the table, down to one without a parent. -/
inductive Loadable (rows : List HeaderRow) : HeaderRow → Prop
  | root {row : HeaderRow} : row ∈ rows → row.previousBlock = emptyHash → Loadable rows row
  | next {row parent : HeaderRow} : row ∈ rows → Loadable rows parent → row.previousBlock = parent.blockHash →
      Loadable rows row

/-- What loading must yield: every header has its parent and the work of its ancestors,
flags reach down to genesis, the top has the most work, the indices describe its path,
and the number of downloaded blocks is that of the highest fetched block on it. -/
structure Recovered (w : Chainman) : Prop where
  parents : ∀ hash b, w.chain.knownHeaders hash = some b → hash ≠ genesisHeader.hash →
    ∃ q, w.chain.knownHeaders b.header.parent = some q ∧ b.number = q.number + 1
  work : ∀ hash b, w.chain.knownHeaders hash = some b → ∃ path works,
    Walk w.chain.parentOf hash path genesisHeader.hash ∧
      List.Forall₂ (fun name work => ∃ d, w.chain.knownHeaders name = some d ∧ getWork d.header.bits = .ok work)
        (path ++ [genesisHeader.hash]) works ∧ b.totalWork = works.sum
  fetched : ∀ x y, w.chain.Fetched x → Descends w.chain.parentOf x y → w.chain.Fetched y
  top : w.chain.knownHeaders w.chain.topHeader.header.hash = some w.chain.topHeader
  mostWork : w.chain.MostWork
  indexed : w.chain.Indexed
  downloaded_le : ∀ hash b, w.chain.OnMain hash → w.chain.knownHeaders hash = some b → b.fetchedFull = true →
    b.number + 1 ≤ w.downloadedBlocks
  downloaded_eq : w.downloadedBlocks ≠ 0 → ∃ hash b, w.chain.OnMain hash ∧ w.chain.knownHeaders hash = some b ∧
    b.fetchedFull = true ∧ b.number + 1 = w.downloadedBlocks

namespace Chain

variable {c : Chain} {headers : List BlockHeaderOwned}

/-- The loop of `calculate_downloaded_blocks` finds the highest fetched block of the path. -/
theorem WellFormed.calculateDownloadedBlocksLoop_spec (wf : c.WellFormed) (fuel : Nat) (b : BlockHeaderWithNumber)
    (stored : c.knownHeaders b.header.hash = some b) (enough : b.number < fuel) :
    ∃ count, c.calculateDownloadedBlocksLoop fuel b = .ok count ∧
      (∀ hash d, Descends c.parentOf b.header.hash hash → c.knownHeaders hash = some d → d.fetchedFull = true →
        d.number + 1 ≤ count) ∧
      (count ≠ 0 → ∃ hash d, Descends c.parentOf b.header.hash hash ∧ c.knownHeaders hash = some d ∧
        d.fetchedFull = true ∧ d.number + 1 = count) := by
  induction fuel generalizing b with
  | zero => omega
  | succ fuel ih =>
    rw [Chain.calculateDownloadedBlocksLoop]
    by_cases flag : b.fetchedFull = true
    · rw [if_pos flag]
      refine ⟨b.number + 1, rfl, fun hash d path atHash _ => ?_, fun _ => ⟨_, b, .refl _, stored, flag, rfl⟩⟩
      have below := (wf.graded.descends (by simp [Known, stored]) path).2
      rw [heightOf_of_known stored, heightOf_of_known atHash] at below
      omega
    rw [if_neg flag]
    by_cases bottom : b.number = 0
    · rw [if_pos bottom]
      refine ⟨0, rfl, fun hash d path atHash raised => ?_, fun absent => absurd rfl absent⟩
      have root : c.parentOf b.header.hash = none := by rw [parentOf_of_known stored, if_pos bottom]
      rw [(descends_iff_of_root root).mp path, stored] at atHash
      cases atHash
      exact absurd raised flag
    · obtain ⟨q, atParent, step⟩ := wf.parents _ _ stored bottom
      have edge : c.parentOf b.header.hash = some b.header.parent := by rw [parentOf_of_known stored, if_neg bottom]
      have name := wf.keyed _ _ atParent
      obtain ⟨count, result, least, found⟩ := ih q (by rw [name, atParent]) (by omega)
      rw [name] at least found
      rw [if_neg bottom, atParent, Outcome.unwrap_some, Outcome.ok_bind]
      refine ⟨count, result, fun hash d path atHash raised => ?_, fun positive => ?_⟩
      · rcases (descends_iff_of_parent edge).mp path with same | below
        · rw [same, stored] at atHash
          cases atHash
          exact absurd raised flag
        · exact least hash d below atHash raised
      · obtain ⟨hash, d, path, atHash, raised, level⟩ := found positive
        exact ⟨hash, d, .head edge path, atHash, raised, level⟩

/-- The total work is the sum over the path to genesis. -/
theorem Traced.work_sum (distinct : Distinct headers) (traced : c.Traced headers) (number : Nat) {hash : Hash}
    {b : BlockHeaderWithNumber} (stored : c.knownHeaders hash = some b) (level : b.number = number) :
    ∃ path works, Walk c.parentOf hash path genesisHeader.hash ∧
      List.Forall₂ (fun name work => ∃ d, c.knownHeaders name = some d ∧ getWork d.header.bits = .ok work)
        (path ++ [genesisHeader.hash]) works ∧ b.totalWork = works.sum := by
  induction number generalizing hash b with
  | zero =>
    obtain ⟨root, columns, total⟩ := traced.root stored level
    have bits : b.header.bits = genesisHeader.bits := congrArg (fun h => h.bits) columns
    rw [root] at stored ⊢
    refine ⟨[], [genesis.totalWork], .nil _, .cons ⟨b, stored, ?_⟩ .nil, ?_⟩
    · rw [bits]
      exact genesis_totalWork
    · rw [total, List.sum_singleton]
  | succ number ih =>
    have positive : b.number ≠ 0 := by omega
    obtain ⟨q, atParent⟩ := Option.isSome_iff_exists.mp (traced.parents hash b stored positive)
    obtain ⟨step, work, ofBits, sum⟩ := traced.step distinct stored atParent
    obtain ⟨path, works, walk, listed, total⟩ := ih atParent (by omega)
    have edge : c.parentOf hash = some b.header.parent := by rw [parentOf_of_known stored, if_neg positive]
    refine ⟨hash :: path, work :: works, .cons edge walk, .cons ⟨b, stored, ofBits⟩ listed, ?_⟩
    rw [sum, total, List.sum_cons, Nat.add_comm]

end Chain

/-! The chain after the loop of `load_headers_from_sqlite`. -/

variable {headers : List BlockHeaderOwned} {rows ordered : List HeaderRow} {reported : List BlockHeaderWithNumber}

def loaded (reported : List BlockHeaderWithNumber) : Chain := reported.foldl Chain.addLoaded Chain.default

/-- A scan from the start of the table. -/
def FullScan (headers : List BlockHeaderOwned) (ordered : List HeaderRow) (reported : List BlockHeaderWithNumber) : Prop :=
  Scanned headers (mapInsert (fun _ => none) emptyHash 0) {emptyHash} ordered reported ∧
    (ordered.map (·.blockHash)).Nodup

theorem totals_start (hash : Hash) (total : Nat) (found : mapInsert (fun _ => none) emptyHash 0 hash = some total) :
    Totals headers hash total := by
  by_cases same : hash = emptyHash
  · rw [same, mapInsert_self] at found
    exact Or.inl ⟨same, (Option.some.inj found).symm⟩
  · rw [mapInsert_of_ne same] at found
    cases found

/-- The top after loading is the old one or a loaded header, with the most work of both. -/
theorem addLoaded_top (reported : List BlockHeaderWithNumber) (c : Chain) :
    c.topHeader.totalWork ≤ (reported.foldl Chain.addLoaded c).topHeader.totalWork ∧
      (∀ r ∈ reported, r.totalWork ≤ (reported.foldl Chain.addLoaded c).topHeader.totalWork) ∧
      ((reported.foldl Chain.addLoaded c).topHeader = c.topHeader ∨
        (reported.foldl Chain.addLoaded c).topHeader ∈ reported) := by
  induction reported generalizing c with
  | nil => exact ⟨le_rfl, by simp, Or.inl rfl⟩
  | cons r rest ih =>
    obtain ⟨base, each, origin⟩ := ih (c.addLoaded r)
    have step : c.topHeader.totalWork ≤ (c.addLoaded r).topHeader.totalWork ∧
        r.totalWork ≤ (c.addLoaded r).topHeader.totalWork ∧
          ((c.addLoaded r).topHeader = c.topHeader ∨ (c.addLoaded r).topHeader = r) := by
      unfold Chain.addLoaded
      dsimp only
      split
      · next more => exact ⟨le_of_lt more, le_rfl, Or.inr rfl⟩
      · next less => exact ⟨le_rfl, not_lt.mp less, Or.inl rfl⟩
    refine ⟨step.1.trans base, fun q member => ?_, ?_⟩
    · rcases List.mem_cons.mp member with same | later
      · rw [same]
        exact step.2.1.trans base
      · exact each q later
    · rcases origin with kept | inRest
      · rcases step.2.2 with old | own
        · exact Or.inl (kept.trans old)
        · exact Or.inr (by rw [List.foldl_cons, kept, own]; exact List.mem_cons_self)
      · exact Or.inr (List.mem_cons_of_mem _ inRest)

namespace FullScan

variable (scan : FullScan headers ordered reported)

include scan

theorem nodup : (reported.map (·.header.hash)).Nodup :=
  scan.2.sublist scan.1.hashes

theorem known {r : BlockHeaderWithNumber} (member : r ∈ reported) : (loaded reported).knownHeaders r.header.hash = some r :=
  (addLoaded_knownHeaders Chain.default scan.nodup).1 r member

theorem known_cases {hash : Hash} {b : BlockHeaderWithNumber} (stored : (loaded reported).knownHeaders hash = some b) :
    (b ∈ reported ∧ b.header.hash = hash) ∨ (hash = genesisHeader.hash ∧ b = genesis) := by
  by_cases present : hash ∈ reported.map (·.header.hash)
  · obtain ⟨r, member, name⟩ := List.mem_map.mp present
    rw [← name, scan.known member] at stored
    cases stored
    exact Or.inl ⟨member, name⟩
  · have outside := (addLoaded_knownHeaders Chain.default scan.nodup).2 hash present
    exact Or.inr (Chain.default_known (outside.symm.trans stored))

/-- A reported header above genesis has its parent among the reported ones. -/
theorem parent (distinct : Distinct headers) {r : BlockHeaderWithNumber} (member : r ∈ reported) (positive : r.number ≠ 0) :
    r.header.parent ≠ emptyHash ∧ ∃ q ∈ reported, q.header.hash = r.header.parent := by
  obtain ⟨_, placed⟩ := scan.1.placed r member
  have apart := placed.parent_ne distinct positive
  refine ⟨apart, (scan.1.parents r member).resolve_left fun found => ?_⟩
  rw [mapInsert_of_ne apart] at found
  cases found

theorem traced (distinct : Distinct headers) : (loaded reported).Traced headers := by
  refine ⟨fun hash b stored => ?_, fun hash b stored => ?_, fun hash b stored positive => ?_⟩
  · rcases scan.known_cases stored with ⟨_, name⟩ | ⟨root, same⟩
    · exact name
    · rw [root, same]
      rfl
  · rcases scan.known_cases stored with ⟨member, _⟩ | ⟨_, same⟩
    · obtain ⟨columns, placed⟩ := scan.1.placed b member
      rw [← columns]
      exact placed
    · rw [same]
      exact .genesis
  · rcases scan.known_cases stored with ⟨member, _⟩ | ⟨_, same⟩
    · obtain ⟨_, q, inReported, name⟩ := scan.parent distinct member positive
      rw [Chain.Known, ← name, scan.known inReported]
      rfl
    · rw [same] at positive
      exact absurd rfl positive

theorem fetched_closed (distinct : Distinct headers) {x y : Hash} (start : (loaded reported).Fetched x)
    (path : Descends (loaded reported).parentOf x y) : (loaded reported).Fetched y := by
  induction path with
  | refl => exact start
  | @tail y z _ edge ih =>
    obtain ⟨b, stored, raised⟩ := ih
    rw [Chain.parentOf_of_known stored] at edge
    split at edge
    · cases edge
    · next positive =>
      cases edge
      rcases scan.known_cases stored with ⟨member, _⟩ | ⟨_, same⟩
      · obtain ⟨apart, _⟩ := scan.parent distinct member positive
        rcases scan.1.flags b member raised with root | ⟨q, inReported, name, above⟩
        · exact absurd (Finset.mem_singleton.mp root) apart
        · exact ⟨q, by rw [← name, scan.known inReported], above⟩
      · rw [same] at raised
        cases raised

/-- With a header above genesis the top is a loaded record. -/
theorem top {r : BlockHeaderWithNumber} (member : r ∈ reported) (positive : r.number ≠ 0) :
    (loaded reported).topHeader ∈ reported := by
  obtain ⟨_, each, origin⟩ := addLoaded_top reported Chain.default
  rcases origin with kept | inReported
  · have bound := each r member
    have heavier := (scan.1.placed r member).2.heavier
    rw [kept, show Chain.default.topHeader = genesis from rfl] at bound
    omega
  · exact inReported

/-- Loaded or not, the top is a known header at its own height. -/
theorem rooted (distinct : Distinct headers) : (loaded reported).Rooted := by
  have traced := scan.traced distinct
  refine ⟨traced.keyed, fun hash b stored positive => ?_, fun hash b stored zero => (traced.root stored zero).1, ?_⟩
  · obtain ⟨q, atParent⟩ := Option.isSome_iff_exists.mp (traced.parents hash b stored positive)
    exact ⟨q, atParent, (traced.step distinct stored atParent).1⟩
  · rcases (addLoaded_top reported Chain.default).2.2 with kept | inReported
    · have same : (loaded reported).topHeader = genesis := kept
      rw [same]
      by_cases present : genesisHeader.hash ∈ reported.map (·.header.hash)
      · obtain ⟨r, member, name⟩ := List.mem_map.mp present
        have number := ((scan.1.placed r member).2.unique distinct .genesis name).1
        exact ⟨r, by rw [← scan.known member, name]; rfl, number⟩
      · exact ⟨genesis, (addLoaded_knownHeaders Chain.default scan.nodup).2 _ present, rfl⟩
    · exact ⟨_, scan.known inReported, rfl⟩

theorem mostWork : (loaded reported).MostWork := by
  obtain ⟨base, each, _⟩ := addLoaded_top reported Chain.default
  intro hash b stored
  rcases scan.known_cases stored with ⟨member, _⟩ | ⟨_, same⟩
  · exact each b member
  · rw [same]
    exact base

end FullScan

/-! Runs with crashes. -/

/-- The rows that a crash may leave of a table: any rows missing, any flags. -/
def Survives (before after : List HeaderRow) : Prop :=
  (after.map (·.blockHash)).Nodup ∧ ∀ row ∈ after, ∃ old ∈ before, row.request = old.request

/-- A step of a running process, or a crash that leaves some rows and a restart that
reads them in some order. -/
inductive LifeEvent where
  | running (event : HeaderEvent)
  | crash (rows ordered : List HeaderRow)

def LifeStep (p : Profile) (s : HeaderStore) (event : LifeEvent) (t : HeaderStore) : Prop :=
  match event with
  | .running event => s.Step p event t
  | .crash rows ordered => Survives s.rows rows ∧ Selects rows ordered ∧
      ∃ w, loadHeadersFromSqlite ordered = .ok w ∧ t = ⟨w, [genesis.request], rows, fun _ => none⟩

/-- The headers that a run applies. -/
def headersOf : List LifeEvent → List BlockHeaderOwned
  | [] => []
  | .running (.header header _) :: events => header :: headersOf events
  | _ :: events => headersOf events

theorem mem_headersOf {events : List LifeEvent} {header : BlockHeaderOwned} {sync : Bool}
    (member : .running (.header header sync) ∈ events) : header ∈ headersOf events := by
  induction events with
  | nil => cases member
  | cons event events ih =>
    rcases List.mem_cons.mp member with same | later
    · rw [← same]
      exact List.mem_cons_self
    · have inTail := ih later
      cases event with
      | running event =>
        cases event with
        | header other _ => exact List.mem_cons_of_mem _ inTail
        | _ => exact inTail
      | crash => exact inTail

/-- Memory, the requests on their way and the table hold placed headers only. -/
structure HeaderStore.Sourced (headers : List BlockHeaderOwned) (s : HeaderStore) : Prop where
  traced : s.chainman.chain.Traced headers
  keys : (s.rows.map (·.blockHash)).Nodup
  rows : RowsPlaced headers s.rows
  requests : ∀ r ∈ s.pending ++ s.chainman.inserts.map (·.request), ∃ total, Placed headers r.row.header r.number total

variable {p : Profile} {s t : HeaderStore} {header : BlockHeaderOwned}

theorem placed_of_request {row : HeaderRow} {r : InsertHeaderRequest} (same : row.request = r)
    (placed : ∃ total, Placed headers r.row.header r.number total) :
    ∃ total, Placed headers row.header row.blockNumber total := by
  rw [← same] at placed
  exact placed

theorem RowsPlaced.of_requests {before after : List HeaderRow} (placed : RowsPlaced headers before)
    (origin : ∀ row ∈ after, ∃ old ∈ before, row.request = old.request) : RowsPlaced headers after := by
  intro row member
  obtain ⟨old, inBefore, same⟩ := origin row member
  exact placed_of_request same (placed old inBefore)

theorem Chain.Traced.congr {c d : Chain} (traced : c.Traced headers) (same : d.knownHeaders = c.knownHeaders) :
    d.Traced headers := by
  refine ⟨?_, ?_, ?_⟩
  · rw [same]
    exact traced.keyed
  · rw [same]
    exact traced.placed
  · unfold Chain.Known
    rw [same]
    exact traced.parents

theorem Chain.Traced.learn {w : Chainman} {new : BlockHeaderWithNumber} (traced : w.chain.Traced headers)
    (member : header ∈ headers) (accepted : w.chain.newHeader p header = .ok (some new)) :
    (w.learn new).chain.Traced headers ∧ Placed headers new.header.columns new.number new.totalWork := by
  obtain ⟨unknown, parent, work, atParent, _, ofBits, fits, shape⟩ := Chain.newHeader_eq_ok_some.mp accepted
  have placed : Placed headers new.header.columns new.number new.totalWork := by
    rw [shape]
    exact .child member (traced.placed _ _ atParent) (traced.keyed _ _ atParent).symm ofBits fits
  have grows := (Chainman.extends_of_newHeader accepted).1
  have keep : ∀ hash, w.chain.Known hash → (w.learn new).chain.Known hash := by
    intro hash known
    rw [Chain.Known, Chainman.learn_known_of_ne (grows.ne_of_known known)]
    exact known
  refine ⟨⟨fun hash b stored => ?_, fun hash b stored => ?_, fun hash b stored positive => ?_⟩, placed⟩
  · rcases Chainman.learn_known_cases stored with ⟨atNew, same⟩ | before
    · rw [atNew, same]
    · exact traced.keyed hash b before
  · rcases Chainman.learn_known_cases stored with ⟨_, same⟩ | before
    · rw [same]
      exact placed
    · exact traced.placed hash b before
  · rcases Chainman.learn_known_cases stored with ⟨_, same⟩ | before
    · refine keep _ ?_
      rw [same, shape, Chain.Known, atParent]
      rfl
    · exact keep _ (traced.parents hash b before positive)

theorem Chainman.Marks.traced {w w' : Chainman} {marked : List Hash} (marks : Chainman.Marks w w' marked)
    (traced : w.chain.Traced headers) : w'.chain.Traced headers := by
  refine ⟨fun hash b stored => ?_, fun hash b stored => ?_, fun hash b stored positive => ?_⟩
  · obtain ⟨old, before, same, _⟩ := marks.of_known stored
    rw [same]
    exact traced.keyed hash old before
  · obtain ⟨old, before, same, number, work, _⟩ := marks.of_known stored
    rw [same, number, work]
    exact traced.placed hash old before
  · obtain ⟨old, before, same, number, _⟩ := marks.of_known stored
    rw [number] at positive
    rw [same, marks.known_iff]
    exact traced.parents hash old before positive

namespace HeaderStore

theorem Sourced.applyHeader (kept : s.Sourced headers) (member : header ∈ headers) (sync : Bool) :
    Sourced headers { s with chainman := (s.chainman.validateAndApplyHeaderInner p header sync).1 } := by
  rcases s.chainman.validateAndApplyHeaderInner_knownHeaders (p := p) header sync with
    ⟨same, inserts⟩ | ⟨new, accepted, grown, inserts⟩
  · exact ⟨kept.traced.congr same, kept.keys, kept.rows, fun r inRequests => kept.requests r (by
      rw [← inserts]
      exact inRequests)⟩
  · obtain ⟨traced, placed⟩ := kept.traced.learn member accepted
    refine ⟨traced.congr grown, kept.keys, kept.rows, fun r inRequests => ?_⟩
    dsimp only at inRequests
    rw [inserts, List.map_append, ← List.append_assoc] at inRequests
    rcases List.mem_append.mp inRequests with before | fresh
    · exact kept.requests r before
    · rw [List.mem_singleton.mp fresh]
      exact ⟨_, placed⟩

theorem Sourced.flush (kept : s.Sourced headers) :
    Sourced headers { s with rows := s.pending.foldl insertRow s.rows, pending := [] } := by
  refine ⟨kept.traced, insertRows_nodup kept.keys, fun row member => ?_, fun r member => ?_⟩
  · rcases mem_insertRows member with old | fresh
    · exact kept.rows row old
    · exact placed_of_request rfl (kept.requests row.request (List.mem_append_left _ fresh))
  · exact kept.requests r (List.mem_append_right _ member)

theorem Sourced.mark (kept : s.Sourced headers) {blocks : List (Hash × Bytes)} {w : Chainman}
    (result : s.chainman.markAsDownloaded blocks = .ok w) (marked : Hash → Option Bytes) :
    Sourced headers ⟨w, s.pending, markBlocksAsDownloaded s.rows blocks, marked⟩ := by
  have marks := Chainman.marks_of_markAsDownloaded result
  refine ⟨marks.traced kept.traced, ?_, kept.rows.of_requests fun _ member => markBlocks_request member, ?_⟩
  · rw [markBlocks_keys]
    exact kept.keys
  · intro r member
    rw [marks.inserts] at member
    exact kept.requests r member

/-- A table that survives a crash loads into placed headers again. -/
theorem Sourced.load (distinct : Distinct headers) (placed : RowsPlaced headers rows) (keys : (rows.map (·.blockHash)).Nodup)
    (selects : Selects rows ordered) {w : Chainman} (result : loadHeadersFromSqlite ordered = .ok w) :
    Sourced headers ⟨w, [genesis.request], rows, fun _ => none⟩ := by
  obtain ⟨reported, headersRead, known, _, inserts⟩ := loadHeadersFromSqlite_eq_ok result
  have inOrder : RowsPlaced headers ordered := fun row member => placed row (selects.1.mem_iff.mp member)
  obtain ⟨_, same, scanned⟩ := distinct.getAllHeadersLoop {emptyHash} inOrder totals_start
  cases same.symm.trans headersRead
  have scan : FullScan headers ordered reported := ⟨scanned, ((selects.1.map (·.blockHash)).nodup_iff).mpr keys⟩
  refine ⟨(scan.traced distinct).congr known, keys, placed, fun r member => ?_⟩
  rw [inserts] at member
  rw [show r = genesis.request by simpa using member]
  exact ⟨_, .genesis⟩

theorem Sourced.deliver (kept : s.Sourced headers) {task : Nat} {b : BlockHeaderWithNumber}
    (spawned : s.chainman.inserts[task]? = some b) :
    Sourced headers { s with
      chainman := { s.chainman with inserts := s.chainman.inserts.eraseIdx task }
      pending := s.pending ++ [b.request] } := by
  refine ⟨kept.traced, kept.keys, kept.rows, fun r member => kept.requests r ?_⟩
  obtain ⟨bound, same⟩ := List.getElem?_eq_some_iff.mp spawned
  rcases List.mem_append.mp member with sent | waiting
  · rcases List.mem_append.mp sent with before | own
    · exact List.mem_append_left _ before
    · rw [List.mem_singleton.mp own, ← same]
      exact List.mem_append_right _ (List.mem_map.mpr ⟨_, List.getElem_mem bound, rfl⟩)
  · obtain ⟨other, inside, request⟩ := List.mem_map.mp waiting
    exact List.mem_append_right _ (List.mem_map.mpr ⟨other, List.mem_of_mem_eraseIdx inside, request⟩)

theorem start_sourced : start.Sourced headers := by
  refine ⟨⟨fun hash b stored => ?_, fun hash b stored => ?_, fun hash b stored positive => ?_⟩, .nil, ?_, fun r member => ?_⟩
  · obtain ⟨root, same⟩ := Chain.default_known stored
    rw [root, same]
    rfl
  · rw [(Chain.default_known stored).2]
    exact .genesis
  · rw [(Chain.default_known stored).2] at positive
    exact absurd rfl positive
  · intro row member
    cases member
  · rw [show r = genesis.request by simpa [start] using member]
    exact ⟨_, .genesis⟩

/-- The step lemma. -/
theorem Sourced.step (distinct : Distinct headers) (kept : s.Sourced headers) {event : LifeEvent}
    (listed : ∀ header sync, event = .running (.header header sync) → header ∈ headers) (step : LifeStep p s event t) :
    t.Sourced headers := by
  cases event with
  | crash rows ordered =>
    obtain ⟨⟨keys, origin⟩, selects, w, result, same⟩ := step
    rw [same]
    exact Sourced.load distinct (kept.rows.of_requests origin) keys selects result
  | running event =>
    change s.next p event = some t at step
    cases event with
    | header header sync =>
      unfold next at step
      dsimp only at step
      split at step
      · cases step
      · cases step
        exact kept.applyHeader (listed header sync rfl) sync
    | deliver task =>
      unfold next at step
      dsimp only at step
      split at step
      · cases step
      · next b spawned =>
        cases step
        exact kept.deliver spawned
    | flush =>
      cases step
      exact kept.flush
    | mark blocks =>
      unfold next at step
      dsimp only at step
      split at step
      · next w result =>
        cases step
        exact kept.mark result _
      · cases step
    | restart ordered =>
      unfold next at step
      dsimp only at step
      split at step
      · next gate =>
        split at step
        · next w result =>
          cases step
          exact Sourced.load distinct kept.rows kept.keys gate.2 result
        · cases step
      · cases step

theorem sourced_of_run {events : List LifeEvent} (run : Run (LifeStep p) start events s)
    (distinct : Distinct (headersOf events)) : s.Sourced (headersOf events) := by
  refine run.with_labels.invariant (P := Sourced (headersOf events)) start_sourced fun _ event _ kept step => ?_
  exact kept.step distinct (fun header sync same => mem_headersOf (same ▸ step.1)) step.2

end HeaderStore

/-- A scan that reports a header above genesis loads a recovered chain. -/
theorem FullScan.recovered (distinct : Distinct headers) (read : getAllHeaders ordered = .ok reported)
    (scan : FullScan headers ordered reported) {r : BlockHeaderWithNumber} (member : r ∈ reported) (positive : r.number ≠ 0) :
    ∃ w, loadHeadersFromSqlite ordered = .ok w ∧ Recovered w ∧ w.chain.knownHeaders = (loaded reported).knownHeaders := by
  have traced := scan.traced distinct
  have atTop := scan.known (scan.top member positive)
  have wf := traced.wellFormed distinct ⟨_, atTop, rfl, rfl⟩
  obtain ⟨set, map, built, indexed⟩ := wf.generateTopWorkChainHashset
  let c : Chain := { loaded reported with mostWorkChain := set, numberToHash := map }
  have wfC : c.WellFormed := ⟨wf.keyed, wf.parents, wf.top⟩
  obtain ⟨count, counted, least, found⟩ :=
    wfC.calculateDownloadedBlocksLoop_spec (c.topHeader.number + 1) c.topHeader atTop (Nat.lt_succ_self _)
  have load : loadHeadersFromSqlite ordered = .ok ⟨c, count, []⟩ := by
    rw [loadHeadersFromSqlite, read, Outcome.ok_bind]
    change ((loaded reported).generateTopWorkChainHashset >>= _) = _
    rw [built, Outcome.ok_bind]
    change (c.calculateDownloadedBlocksLoop (c.topHeader.number + 1) c.topHeader >>= _) = _
    rw [counted]
    rfl
  refine ⟨⟨c, count, []⟩, load, ⟨fun hash b stored other => ?_, fun hash b stored => ?_, fun x y => ?_, atTop, ?_, indexed,
    least, found⟩, rfl⟩
  · have above := traced.number_ne stored other
    obtain ⟨q, atParent⟩ := Option.isSome_iff_exists.mp (traced.parents hash b stored above)
    exact ⟨q, atParent, (traced.step distinct stored atParent).1⟩
  · exact traced.work_sum distinct b.number stored rfl
  · exact scan.fetched_closed distinct
  · exact scan.mostWork

theorem Chain.Rooted.congr {c d : Chain} (rooted : c.Rooted) (known : d.knownHeaders = c.knownHeaders)
    (header : d.topHeader.header = c.topHeader.header) (number : d.topHeader.number = c.topHeader.number) : d.Rooted := by
  refine ⟨?_, ?_, ?_, ?_⟩
  · rw [known]
    exact rooted.keyed
  · rw [known]
    exact rooted.parents
  · rw [known]
    exact rooted.root
  · rw [known, header, number]
    exact rooted.top

/-- Every load after a crash is a full scan. -/
theorem fullScan_of_load {p : Profile} {events : List LifeEvent} {s : HeaderStore} {w : Chainman}
    (run : Run (LifeStep p) HeaderStore.start events s) (distinct : Distinct (headersOf events))
    (survives : Survives s.rows rows) (selects : Selects rows ordered) (result : loadHeadersFromSqlite ordered = .ok w) :
    ∃ reported, FullScan (headersOf events) ordered reported ∧
      w.chain.knownHeaders = (loaded reported).knownHeaders ∧ w.chain.topHeader = (loaded reported).topHeader := by
  have placed := (HeaderStore.sourced_of_run run distinct).rows.of_requests survives.2
  have inOrder : RowsPlaced (headersOf events) ordered := fun row member => placed row (selects.1.mem_iff.mp member)
  obtain ⟨reported, read, known, top, _⟩ := loadHeadersFromSqlite_eq_ok result
  obtain ⟨_, same, scanned⟩ := distinct.getAllHeadersLoop {emptyHash} inOrder totals_start
  cases same.symm.trans read
  exact ⟨reported, ⟨scanned, ((selects.1.map (·.blockHash)).nodup_iff).mpr survives.1⟩, known, top⟩

theorem rooted_of_load {p : Profile} {events : List LifeEvent} {s : HeaderStore} {w : Chainman}
    (run : Run (LifeStep p) HeaderStore.start events s) (distinct : Distinct (headersOf events))
    (survives : Survives s.rows rows) (selects : Selects rows ordered) (result : loadHeadersFromSqlite ordered = .ok w) :
    w.chain.Rooted := by
  obtain ⟨_, scan, known, top⟩ := fullScan_of_load run distinct survives selects result
  exact (scan.rooted distinct).congr known (congrArg (·.header) top) (congrArg (·.number) top)

/-- After any crash of any run a restart that finds a header above genesis recovers, with every row that can be
loaded. -/
theorem recovered_of_run {p : Profile} {events : List LifeEvent} {s : HeaderStore}
    (run : Run (LifeStep p) HeaderStore.start events s) (distinct : Distinct (headersOf events))
    (survives : Survives s.rows rows) (selects : Selects rows ordered)
    (loadable : ∃ row, Loadable rows row ∧ row.blockNumber ≠ 0) :
    ∃ w, loadHeadersFromSqlite ordered = .ok w ∧ Recovered w ∧ ∀ row, Loadable rows row →
      ∃ r, w.chain.knownHeaders row.blockHash = some r ∧ r.header = row.header ∧ r.number = row.blockNumber := by
  have kept := HeaderStore.sourced_of_run run distinct
  have placed := kept.rows.of_requests survives.2
  have inOrder : RowsPlaced (headersOf events) ordered := fun row member => placed row (selects.1.mem_iff.mp member)
  obtain ⟨reported, read, scanned⟩ := distinct.getAllHeadersLoop {emptyHash} inOrder totals_start
  have scan : FullScan (headersOf events) ordered reported :=
    ⟨scanned, ((selects.1.map (·.blockHash)).nodup_iff).mpr survives.1⟩
  have inRows : ∀ row, Loadable rows row → row ∈ ordered := by
    intro row good
    cases good with
    | root member _ => exact selects.1.mem_iff.mpr member
    | next member _ _ => exact selects.1.mem_iff.mpr member
  have every : ∀ row, Loadable rows row → ∃ r ∈ reported, r.header = row.header ∧ r.number = row.blockNumber := by
    intro row good
    refine distinct.getAllHeadersLoop_complete inOrder totals_start selects.2 (Loadable rows) (fun row _ good => ?_) read
      (inRows row good) good
    cases good with
    | root _ orphan =>
      rw [orphan]
      exact Or.inl rfl
    | @next row parent member above link =>
      have inParent := inRows parent above
      obtain ⟨_, own⟩ := placed row member
      obtain ⟨_, other⟩ := inOrder parent inParent
      have step := own.number_of_parent distinct other link
      exact Or.inr ⟨parent, inParent, above, link.symm, by omega⟩
  obtain ⟨row, good, positive⟩ := loadable
  obtain ⟨r, member, _, number⟩ := every row good
  obtain ⟨w, load, recovered, known⟩ := scan.recovered distinct read member (by rw [number]; exact positive)
  refine ⟨w, load, recovered, fun other loads => ?_⟩
  obtain ⟨b, reported, header, level⟩ := every other loads
  have stored := scan.known reported
  rw [header] at stored
  exact ⟨b, known ▸ stored, header, level⟩

/-! A crash after two rows are flushed, which leaves both with their flags set. -/

def flushedEvents : List HeaderEvent := [.flush, .header HeaderStore.firstHeader true, .deliver 0, .flush]

def flushedStore : HeaderStore := HeaderStore.after .dev HeaderStore.start flushedEvents

def crashRows : List HeaderRow := flushedStore.rows.map fun row => { row with fetchedFull := true }

theorem recovered_of_run_flushed : ∃ w, loadHeadersFromSqlite crashRows = .ok w ∧ Recovered w ∧ ∀ row,
    Loadable crashRows row → ∃ r, w.chain.knownHeaders row.blockHash = some r ∧ r.header = row.header ∧
      r.number = row.blockNumber := by
  have run : Run (LifeStep .dev) HeaderStore.start (flushedEvents.map .running) flushedStore := by
    have happens : ∀ (s : HeaderStore) (event : HeaderEvent), (s.next .dev event).isSome = true →
        LifeStep .dev s (.running event) (HeaderStore.after .dev s [event]) :=
      fun s event happens => HeaderStore.step_of_isSome happens
    exact .cons (happens _ _ (by decide)) (.cons (happens _ _ (by decide)) (.cons (happens _ _ (by decide))
      (.single (happens _ _ (by decide)))))
  have distinct : Distinct (headersOf (flushedEvents.map .running)) := ⟨by decide, by decide⟩
  have survives : Survives flushedStore.rows crashRows := ⟨by decide, by decide⟩
  have loadable : ∃ row, Loadable crashRows row ∧ row.blockNumber ≠ 0 := by
    have root : Loadable crashRows { genesis.request.row with fetchedFull := true } := .root (by decide) rfl
    refine ⟨{ (BlockHeaderWithNumber.request ⟨HeaderStore.firstHeader, 1, false, 0, none⟩).row with fetchedFull := true },
      .next (by decide) root rfl, by decide⟩
  exact recovered_of_run run distinct survives ⟨.refl _, by decide⟩ loadable

end Bitlens

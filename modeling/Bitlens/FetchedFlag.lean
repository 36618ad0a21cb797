import Bitlens.HeaderStore

namespace Bitlens
open Lib

namespace Chain

variable {c c' : Chain} {p : Profile}

theorem Lineage.congr (lineage : c.Lineage) (same : c'.knownHeaders = c.knownHeaders) : c'.Lineage := by
  refine ⟨?_, ?_, ?_⟩
  · rw [same]
    exact lineage.keyed
  · rw [same]
    exact lineage.noEmpty
  · rw [same]
    exact lineage.ancestry

theorem Lineage.learn (lineage : c.Lineage) {header : BlockHeaderOwned} {new : BlockHeaderWithNumber}
    (result : c.newHeader p header = .ok (some new)) (nonempty : header.hash ≠ emptyHash)
    (grown : c'.knownHeaders = mapInsert c.knownHeaders new.header.hash new) : c'.Lineage := by
  obtain ⟨fresh, parent, work, atParent, _, ofBits, sum, shape⟩ := newHeader_eq_some result
  have named : new.header = header := by rw [shape]
  have old : ∀ hash b, c.knownHeaders hash = some b → c'.knownHeaders hash = some b := by
    intro hash b stored
    have apart : hash ≠ new.header.hash := by
      rintro rfl
      rw [named, fresh] at stored
      cases stored
    rw [grown, mapInsert_of_ne apart, stored]
  refine ⟨?_, ?_, ?_⟩
  · intro hash b stored
    by_cases same : hash = new.header.hash
    · rw [grown, same, mapInsert_self] at stored
      cases stored
      exact same.symm
    · rw [grown, mapInsert_of_ne same] at stored
      exact lineage.keyed hash b stored
  · rw [grown, mapInsert_of_ne (by rw [named]; exact nonempty.symm), lineage.noEmpty]
  · intro hash b stored
    by_cases same : hash = new.header.hash
    · rw [grown, same, mapInsert_self] at stored
      cases stored
      refine ⟨parent.totalWork, work, by rw [named]; exact ofBits, sum, Or.inr ⟨parent, ?_, by rw [shape], rfl⟩⟩
      rw [named]
      exact old _ _ atParent
    · rw [grown, mapInsert_of_ne same] at stored
      obtain ⟨parentWork, w, bits, total, lineal⟩ := lineage.ancestry hash b stored
      refine ⟨parentWork, w, bits, total, lineal.imp_right ?_⟩
      rintro ⟨q, above, rest⟩
      exact ⟨q, old _ _ above, rest⟩

end Chain

theorem Chainman.Marks.lineage {w w' : Chainman} {marked : List Hash} (marks : Chainman.Marks w w' marked)
    (lineage : w.chain.Lineage) : w'.chain.Lineage := by
  refine ⟨?_, marks.only _ lineage.noEmpty, ?_⟩
  · intro hash b' stored'
    obtain ⟨b, stored, header, _⟩ := marks.of_known stored'
    rw [header]
    exact lineage.keyed hash b stored
  · intro hash b' stored'
    obtain ⟨b, stored, header, number, total, _⟩ := marks.of_known stored'
    obtain ⟨parentWork, work, bits, sum, lineal⟩ := lineage.ancestry hash b stored
    rw [header, number, total]
    refine ⟨parentWork, work, bits, sum, lineal.imp_right ?_⟩
    rintro ⟨q, above, step, same⟩
    obtain ⟨q', above', _, number', total', _⟩ := marks.keeps _ q above
    exact ⟨q', above', by rw [number', step], by rw [total', same]⟩

namespace HeaderStore

/-- The table, the requests on their way to it and the headers in memory agree;
flags in memory have reached the table, parents first. -/
structure Consistent (s : HeaderStore) : Prop where
  lineage : s.chainman.chain.Lineage
  root : ∃ b, s.chainman.chain.knownHeaders genesisHeader.hash = some b ∧ b.request = genesis.request
  keys : (s.rows.map (·.blockHash)).Nodup
  records : s.chainman.chain.Records s.rows
  requests : ∀ r ∈ s.pending ++ s.chainman.inserts.map (·.request),
    ∃ b, s.chainman.chain.knownHeaders r.hash = some b ∧ b.request = r
  covered : ∀ hash, s.chainman.chain.Known hash → hash ∈ s.rows.map (·.blockHash) ∨
    hash ∈ (s.pending ++ s.chainman.inserts.map (·.request)).map (·.hash)
  fetched : ∀ hash b, s.chainman.chain.knownHeaders hash = some b → b.fetchedFull = true →
    (∃ row ∈ s.rows, row.blockHash = hash ∧ row.fetchedFull = true) ∧
      (b.header.parent = emptyHash ∨ s.chainman.chain.Fetched b.header.parent)
  marked : ∀ hash script, s.marked hash = some script →
    s.chainman.chain.Fetched hash ∧ RowMarked s.rows hash script

variable {s t : HeaderStore} {p : Profile} {event : HeaderEvent}

theorem Consistent.header (kept : s.Consistent) {header : BlockHeaderOwned} {isHeadersync : Bool}
    (nonempty : header.hash ≠ emptyHash) :
    Consistent { s with chainman := (s.chainman.validateAndApplyHeaderInner p header isHeadersync).1 } := by
  rcases s.chainman.validateAndApplyHeaderInner_knownHeaders (p := p) header isHeadersync with
    ⟨same, inserts⟩ | ⟨new, result, grown, inserts⟩
  · refine ⟨kept.lineage.congr same, ?_, kept.keys, ?_, ?_, ?_, ?_, ?_⟩ <;>
      simp only [Chain.Records, Chain.Known, Chain.Fetched, same, inserts]
    · exact kept.root
    · exact kept.records
    · exact kept.requests
    · exact kept.covered
    · exact kept.fetched
    · exact kept.marked
  · have fresh := (Chainman.extends_of_newHeader result).1.fresh
    have old : ∀ hash b, s.chainman.chain.knownHeaders hash = some b →
        (s.chainman.validateAndApplyHeaderInner p header isHeadersync).1.chain.knownHeaders hash = some b := by
      intro hash b stored
      have apart : hash ≠ new.header.hash := by
        rintro rfl
        rw [fresh] at stored
        cases stored
      rw [grown, Chainman.learn_known_of_ne apart, stored]
    have flagKept : ∀ hash, s.chainman.chain.Fetched hash →
        (s.chainman.validateAndApplyHeaderInner p header isHeadersync).1.chain.Fetched hash := by
      rintro hash ⟨b, stored, flag⟩
      exact ⟨b, old hash b stored, flag⟩
    have stale : new.fetchedFull = false := by
      obtain ⟨_, _, _, _, _, _, _, shape⟩ := Chain.newHeader_eq_some result
      rw [shape]
    refine ⟨kept.lineage.learn result nonempty grown, ?_, kept.keys, ?_, ?_, ?_, ?_, ?_⟩
    · obtain ⟨b, stored, request⟩ := kept.root
      exact ⟨b, old _ b stored, request⟩
    · intro row member
      obtain ⟨b, stored, request⟩ := kept.records row member
      exact ⟨b, old _ b stored, request⟩
    · intro r member
      simp only [inserts, List.map_append, List.map_cons, List.map_nil, ← List.append_assoc] at member
      rcases List.mem_append.mp member with before | fresh'
      · obtain ⟨b, stored, request⟩ := kept.requests r before
        exact ⟨b, old _ b stored, request⟩
      · rw [List.mem_singleton.mp fresh']
        exact ⟨new, by rw [grown]; exact Chainman.learn_known_self, rfl⟩
    · intro hash known
      simp only [inserts, List.map_append, List.map_cons, List.map_nil, ← List.append_assoc]
      by_cases same : hash = new.header.hash
      · right
        rw [same]
        exact List.mem_append_right _ (List.mem_singleton.mpr rfl)
      · simp only [Chain.Known, grown, Chainman.learn_known_of_ne same] at known
        refine (kept.covered hash known).imp_right fun member => List.mem_append_left _ ?_
        rw [← List.map_append]
        exact member
    · intro hash b stored flag
      by_cases same : hash = new.header.hash
      · rw [grown, same, Chainman.learn_known_self] at stored
        cases stored
        rw [stale] at flag
        cases flag
      · rw [grown, Chainman.learn_known_of_ne same] at stored
        exact (kept.fetched hash b stored flag).imp_right (Or.imp_right (flagKept _))
    · intro hash script entry
      exact (kept.marked hash script entry).imp_left (flagKept hash)

theorem Consistent.deliver (kept : s.Consistent) {task : Nat} {b : BlockHeaderWithNumber}
    (spawned : s.chainman.inserts[task]? = some b) :
    Consistent { s with
      chainman := { s.chainman with inserts := s.chainman.inserts.eraseIdx task }
      pending := s.pending ++ [b.request] } := by
  obtain ⟨bound, rfl⟩ := List.getElem?_eq_some_iff.mp spawned
  have perm : ((s.pending ++ [s.chainman.inserts[task].request]) ++
      (s.chainman.inserts.eraseIdx task).map (·.request)).Perm
        (s.pending ++ s.chainman.inserts.map (·.request)) := by
    rw [List.append_assoc]
    refine List.Perm.append_left _ ?_
    exact ((List.getElem_cons_eraseIdx_perm bound).map (·.request))
  refine ⟨kept.lineage, kept.root, kept.keys, kept.records, fun r member => kept.requests r (perm.mem_iff.mp member), ?_,
    kept.fetched, kept.marked⟩
  intro hash known
  exact (kept.covered hash known).imp_right (perm.map (·.hash)).mem_iff.mpr

theorem Consistent.flush (kept : s.Consistent) :
    Consistent { s with rows := s.pending.foldl insertRow s.rows, pending := [] } := by
  refine ⟨kept.lineage, kept.root, insertRows_nodup kept.keys, ?_, ?_, ?_, ?_, ?_⟩
  · intro row member
    rcases mem_insertRows member with old | fresh
    · exact kept.records row old
    · exact kept.requests row.request (List.mem_append_left _ fresh)
  · intro r member
    exact kept.requests r (List.mem_append_right _ member)
  · intro hash known
    rcases kept.covered hash known with present | requested
    · obtain ⟨row, inRows, same⟩ := List.mem_map.mp present
      exact Or.inl (List.mem_map.mpr ⟨row, insertRows_subset _ _ inRows, same⟩)
    · obtain ⟨r, member, same⟩ := List.mem_map.mp requested
      rcases List.mem_append.mp member with pending | spawned
      · left
        rw [← same]
        exact insertRows_keys _ pending
      · exact Or.inr (List.mem_map.mpr ⟨r, spawned, same⟩)
  · intro hash b stored flag
    obtain ⟨⟨row, inRows, raised⟩, above⟩ := kept.fetched hash b stored flag
    exact ⟨⟨row, insertRows_subset _ _ inRows, raised⟩, above⟩
  · intro hash script entry
    obtain ⟨flag, row, inRows, raised⟩ := kept.marked hash script entry
    exact ⟨flag, row, insertRows_subset _ _ inRows, raised⟩

theorem marked_cases {blocks : List (Hash × Bytes)} {marked : Hash → Option Bytes} {hash : Hash} {script : Bytes}
    (entry : blocks.foldl (fun map block => mapInsert map block.1 block.2) marked hash = some script) :
    hash ∈ blocks.map Prod.fst ∨ marked hash = some script := by
  induction blocks generalizing marked with
  | nil => exact Or.inr entry
  | cons block blocks ih =>
    rcases ih entry with later | inserted
    · exact Or.inl (List.mem_cons_of_mem _ later)
    · by_cases same : hash = block.1
      · exact Or.inl (by simp [same])
      · exact Or.inr ((mapInsert_of_ne same).symm.trans inserted)

theorem Consistent.mark (kept : s.Consistent) {blocks : List (Hash × Bytes)} {w : Chainman}
    (result : s.chainman.markAsDownloaded blocks = .ok w) (ready : s.Ready (.mark blocks)) :
    Consistent { s with
      chainman := w
      rows := markBlocksAsDownloaded s.rows blocks
      marked := blocks.foldl (fun map block => mapInsert map block.1 block.2) s.marked } := by
  obtain ⟨present, order⟩ := ready
  have marks := Chainman.marks_of_markAsDownloaded result
  have same : ∀ hash b b', s.chainman.chain.knownHeaders hash = some b → w.chain.knownHeaders hash = some b' →
      b'.request = b.request := by
    intro hash b b' stored stored'
    obtain ⟨b'', stored'', header, number, _⟩ := marks.keeps hash b stored
    rw [stored'] at stored''
    cases stored''
    simp only [BlockHeaderWithNumber.request, header, number]
  have kept' : ∀ hash r, (∃ b, s.chainman.chain.knownHeaders hash = some b ∧ b.request = r) →
      ∃ b, w.chain.knownHeaders hash = some b ∧ b.request = r := by
    rintro hash r ⟨b, stored, request⟩
    obtain ⟨b', stored', _⟩ := marks.keeps hash b stored
    exact ⟨b', stored', (same hash b b' stored stored').trans request⟩
  refine ⟨marks.lineage kept.lineage, kept' _ _ kept.root, ?_, ?_, ?_, ?_, ?_, ?_⟩
  · dsimp only
    rw [markBlocks_keys]
    exact kept.keys
  · intro row member
    obtain ⟨old, inRows, request⟩ := markBlocks_request member
    rw [show row.blockHash = old.blockHash from congrArg InsertHeaderRequest.hash request, request]
    exact kept' _ _ (kept.records old inRows)
  · intro r member
    rw [marks.inserts] at member
    exact kept' _ _ (kept.requests r member)
  · intro hash known
    dsimp only
    rw [marks.inserts, markBlocks_keys]
    exact kept.covered hash (marks.known_iff.mp known)
  · intro hash b' stored' flag
    obtain ⟨b, stored, header, _, _, fetched⟩ := marks.of_known stored'
    rw [header]
    rcases fetched.mp flag with old | fresh
    · obtain ⟨row, above⟩ := kept.fetched hash b stored old
      exact ⟨markBlocks_fetched (Or.inl row), above.imp_right fun parent => marks.fetched_iff.mpr (Or.inl parent)⟩
    · refine ⟨markBlocks_fetched (Or.inr ⟨fresh, ?_⟩), ?_⟩
      · obtain ⟨block, member, name⟩ := List.mem_map.mp fresh
        rw [← name]
        exact present block member
      · refine (kept.lineage.parent_cases stored).imp And.left fun ⟨_, edge⟩ => marks.fetched_iff.mpr ?_
        exact order.parent_mem fresh edge
  · intro hash script entry
    refine ⟨marks.fetched_iff.mpr ?_, markBlocks_marked present (fun h text old => (kept.marked h text old).2) entry⟩
    exact (marked_cases entry).symm.imp_left fun old => (kept.marked hash script old).1

/-- With nothing on its way to the table, every parent has its row. -/
theorem Consistent.closed (kept : s.Consistent) (flushed : s.Flushed) {hash : Hash}
    (known : s.chainman.chain.Known hash) : hash ∈ s.rows.map (·.blockHash) := by
  have covered := kept.covered hash known
  rw [flushed.1, flushed.2] at covered
  exact covered.resolve_right (by simp)

theorem Consistent.parent_row (kept : s.Consistent) (flushed : s.Flushed) (hash : Hash)
    (member : hash ∈ s.rows.map (·.blockHash)) (parent : Hash)
    (edge : s.chainman.chain.parentOf hash = some parent) : parent ∈ s.rows.map (·.blockHash) := by
  obtain ⟨row, inRows, same⟩ := List.mem_map.mp member
  obtain ⟨b, stored, _⟩ := kept.records row inRows
  have known : s.chainman.chain.Known hash := by simp [Chain.Known, ← same, stored]
  exact kept.closed flushed (Chain.graded_of_parents kept.lineage.parents _ _ known edge).1

/-- What `get_all_headers` reports once everything is flushed. -/
theorem Consistent.getAllHeaders (kept : s.Consistent) (flushed : s.Flushed) {ordered : List HeaderRow}
    (selects : Selects s.rows ordered) :
    ∃ reported, Bitlens.getAllHeaders ordered = .ok reported ∧
      List.Forall₂ s.chainman.chain.Reports ordered reported ∧
      (∀ r ∈ reported, r.fetchedFull = true → r.header.parent = emptyHash ∨
        ∃ q ∈ reported, q.header.hash = r.header.parent ∧ q.fetchedFull = true) ∧
      ∀ r ∈ reported, s.chainman.chain.Fetched r.header.hash → r.fetchedFull = true := by
  refine kept.lineage.getAllHeaders kept.records (kept.parent_row flushed) ?_ selects
  rintro row member ⟨b, stored, flag⟩
  obtain ⟨⟨other, inRows, same, raised⟩, above⟩ := kept.fetched _ b stored flag
  obtain ⟨b', stored', request⟩ := kept.records row member
  rw [stored] at stored'
  cases stored'
  have unique : other = row := List.inj_on_of_nodup_map kept.keys inRows member same
  rw [unique] at raised
  have parent : b.header.parent = row.previousBlock := congrArg InsertHeaderRequest.parent request
  rw [parent] at above
  exact ⟨raised, above⟩

end HeaderStore

theorem Chain.Reports.hashes {c : Chain} {rows : List HeaderRow} {reported : List BlockHeaderWithNumber}
    (matched : List.Forall₂ c.Reports rows reported) :
    reported.map (·.header.hash) = rows.map (·.blockHash) := by
  induction matched with
  | nil => rfl
  | cons first _ ih =>
    rw [List.map_cons, List.map_cons, ih]
    exact congrArg (· :: _) (congrArg InsertHeaderRequest.hash first.1)

theorem Chain.Reports.of_mem {c : Chain} {rows : List HeaderRow} {reported : List BlockHeaderWithNumber}
    (matched : List.Forall₂ c.Reports rows reported) {r : BlockHeaderWithNumber} (member : r ∈ reported) :
    ∃ row ∈ rows, c.Reports row r := by
  induction matched with
  | nil => cases member
  | cons first _ ih =>
    rcases List.mem_cons.mp member with same | later
    · rw [same]
      exact ⟨_, List.mem_cons_self, first⟩
    · obtain ⟨row, inRows, report⟩ := ih later
      exact ⟨row, List.mem_cons_of_mem _ inRows, report⟩

theorem loadHeadersFromSqlite_eq_ok {ordered : List HeaderRow} {w : Chainman}
    (result : loadHeadersFromSqlite ordered = .ok w) :
    ∃ reported, getAllHeaders ordered = .ok reported ∧
      w.chain.knownHeaders = (reported.foldl Chain.addLoaded Chain.default).knownHeaders ∧
      w.chain.topHeader = (reported.foldl Chain.addLoaded Chain.default).topHeader ∧ w.inserts = [] := by
  obtain ⟨reported, headers, result⟩ := Outcome.bind_eq_ok.mp result
  obtain ⟨chain, indexed, result⟩ := Outcome.bind_eq_ok.mp result
  obtain ⟨count, _, result⟩ := Outcome.bind_eq_ok.mp result
  obtain ⟨indices, _, indexed⟩ := Outcome.bind_eq_ok.mp indexed
  cases result
  cases indexed
  exact ⟨reported, headers, rfl, rfl, rfl⟩

/-- Loading stores each reported header under its hash. -/
theorem addLoaded_knownHeaders {reported : List BlockHeaderWithNumber} (c : Chain)
    (keys : (reported.map (·.header.hash)).Nodup) :
    (∀ r ∈ reported, (reported.foldl Chain.addLoaded c).knownHeaders r.header.hash = some r) ∧
      ∀ hash, hash ∉ reported.map (·.header.hash) →
        (reported.foldl Chain.addLoaded c).knownHeaders hash = c.knownHeaders hash := by
  induction reported generalizing c with
  | nil => exact ⟨by simp, fun _ _ => rfl⟩
  | cons r rest ih =>
    obtain ⟨fresh, keys⟩ := List.nodup_cons.mp keys
    obtain ⟨inside, outside⟩ := ih (c.addLoaded r) keys
    refine ⟨fun q member => ?_, fun hash absent => ?_⟩
    · rcases List.mem_cons.mp member with same | later
      · rw [same]
        exact (outside _ fresh).trans (mapInsert_self _ _ _)
      · exact inside q later
    · rw [List.map_cons, List.mem_cons, not_or] at absent
      exact (outside hash absent.2).trans (mapInsert_of_ne absent.1)

namespace HeaderStore

variable {s t : HeaderStore} {p : Profile} {event : HeaderEvent}

/-- A load finds the headers of the state before it, up to their marks. -/
structure Reloads (s : HeaderStore) (w : Chainman) : Prop where
  same : ∀ hash r, w.chain.knownHeaders hash = some r → ∃ b, s.chainman.chain.knownHeaders hash = some b ∧
    r.header.hash = hash ∧ r.request = b.request ∧ r.totalWork = b.totalWork
  all : ∀ hash b, s.chainman.chain.knownHeaders hash = some b → ∃ r, w.chain.knownHeaders hash = some r ∧
    r.request = b.request ∧ r.totalWork = b.totalWork

theorem Consistent.reloads (kept : s.Consistent) (flushed : s.Flushed) {ordered : List HeaderRow}
    (selects : Selects s.rows ordered) {w : Chainman} {reported : List BlockHeaderWithNumber}
    (matched : List.Forall₂ s.chainman.chain.Reports ordered reported)
    (inside : ∀ r ∈ reported, w.chain.knownHeaders r.header.hash = some r)
    (outside : ∀ hash, hash ∉ reported.map (·.header.hash) → w.chain.knownHeaders hash = Chain.default.knownHeaders hash) :
    s.Reloads w ∧ ∀ hash r, w.chain.knownHeaders hash = some r → r ∈ reported := by
  have hashes := Chain.Reports.hashes matched
  have listed : ∀ hash, s.chainman.chain.Known hash → ∃ r ∈ reported, r.header.hash = hash := by
    intro hash known
    have member := (selects.1.map (·.blockHash)).mem_iff.mpr (kept.closed flushed known)
    rw [← hashes] at member
    exact List.mem_map.mp member
  have agrees : ∀ r ∈ reported, ∃ b, s.chainman.chain.knownHeaders r.header.hash = some b ∧
      r.request = b.request ∧ r.totalWork = b.totalWork := by
    intro r member
    obtain ⟨row, inOrdered, request, _, b, stored, total⟩ := Chain.Reports.of_mem matched member
    obtain ⟨b', stored', request'⟩ := kept.records row (selects.1.mem_iff.mp inOrdered)
    rw [stored] at stored'
    cases stored'
    rw [show r.header.hash = row.blockHash from congrArg InsertHeaderRequest.hash request]
    exact ⟨b, stored, request.trans request'.symm, total⟩
  have loaded : ∀ hash r, w.chain.knownHeaders hash = some r → r ∈ reported ∧ r.header.hash = hash := by
    intro hash r stored
    by_cases present : hash ∈ reported.map (·.header.hash)
    · obtain ⟨r', member, same⟩ := List.mem_map.mp present
      rw [← same, inside r' member] at stored
      cases stored
      exact ⟨member, same⟩
    · rw [outside hash present] at stored
      obtain ⟨rfl, _⟩ := Chain.default_known stored
      obtain ⟨b, root, _⟩ := kept.root
      obtain ⟨r', member, same⟩ := listed _ (Option.isSome_iff_exists.mpr ⟨b, root⟩)
      exact absurd (List.mem_map.mpr ⟨r', member, same⟩) present
  refine ⟨⟨?_, ?_⟩, fun hash r stored => (loaded hash r stored).1⟩
  · intro hash r stored
    obtain ⟨member, name⟩ := loaded hash r stored
    obtain ⟨b, before, agree⟩ := agrees r member
    rw [name] at before
    exact ⟨b, before, name, agree⟩
  · intro hash b before
    obtain ⟨r, member, name⟩ := listed hash (by simp [Chain.Known, before])
    obtain ⟨b', before', agree⟩ := agrees r member
    rw [name, before] at before'
    cases before'
    exact ⟨r, by rw [← name]; exact inside r member, agree⟩

theorem Reloads.lineage {w : Chainman} (reloads : s.Reloads w) (lineage : s.chainman.chain.Lineage) : w.chain.Lineage := by
  refine ⟨?_, ?_, ?_⟩
  · intro hash r stored
    obtain ⟨_, _, name, _⟩ := reloads.same hash r stored
    exact name
  · cases stored : w.chain.knownHeaders emptyHash with
    | none => rfl
    | some r =>
      obtain ⟨b, before, _⟩ := reloads.same _ r stored
      rw [lineage.noEmpty] at before
      cases before
  · intro hash r stored
    obtain ⟨b, before, _, request, total⟩ := reloads.same hash r stored
    obtain ⟨parentWork, work, bits, sum, lineal⟩ := lineage.ancestry _ b before
    have parent : r.header.parent = b.header.parent := congrArg InsertHeaderRequest.parent request
    have number : r.number = b.number := congrArg InsertHeaderRequest.number request
    rw [show r.header.bits = b.header.bits from congrArg InsertHeaderRequest.bits request, parent, number, total]
    refine ⟨parentWork, work, bits, sum, lineal.imp_right ?_⟩
    rintro ⟨q, above, step, work'⟩
    obtain ⟨q', stored', request', total'⟩ := reloads.all _ q above
    refine ⟨q', stored', ?_, by rw [work', total']⟩
    rw [step, show q'.number = q.number from congrArg InsertHeaderRequest.number request']

theorem Consistent.restart (kept : s.Consistent) (flushed : s.Flushed) {ordered : List HeaderRow}
    (selects : Selects s.rows ordered) {w : Chainman} (result : loadHeadersFromSqlite ordered = .ok w) :
    Consistent ⟨w, [genesis.request], s.rows, fun _ => none⟩ := by
  obtain ⟨reported, headers, known, _, inserts⟩ := loadHeadersFromSqlite_eq_ok result
  obtain ⟨_, same, matched, sound, _⟩ := kept.getAllHeaders flushed selects
  rw [headers] at same
  cases same
  have keys : (reported.map (·.header.hash)).Nodup := by
    rw [Chain.Reports.hashes matched]
    exact ((selects.1.map (·.blockHash)).nodup_iff).mpr kept.keys
  obtain ⟨inside, outside⟩ := addLoaded_knownHeaders Chain.default keys
  rw [← known] at inside outside
  obtain ⟨reloads, member⟩ := kept.reloads flushed selects matched inside outside
  obtain ⟨b, stored, root⟩ := kept.root
  obtain ⟨r, atRoot, request, _⟩ := reloads.all _ b stored
  refine ⟨reloads.lineage kept.lineage, ⟨r, atRoot, request.trans root⟩, kept.keys, ?_, ?_, ?_, ?_, ?_⟩
  · intro row inRows
    obtain ⟨b, stored, request⟩ := kept.records row inRows
    obtain ⟨r, found, request', _⟩ := reloads.all _ b stored
    exact ⟨r, found, request'.trans request⟩
  · intro inserted waiting
    rw [inserts] at waiting
    rw [show inserted = genesis.request by simpa using waiting]
    exact ⟨r, atRoot, request.trans root⟩
  · intro hash present
    obtain ⟨r, stored⟩ := Option.isSome_iff_exists.mp present
    obtain ⟨b, before, _⟩ := reloads.same hash r stored
    exact Or.inl (kept.closed flushed (by simp [Chain.Known, before]))
  · intro hash r stored flag
    obtain ⟨_, _, name, _⟩ := reloads.same hash r stored
    obtain ⟨row, inOrdered, request, raised, _⟩ := Chain.Reports.of_mem matched (member hash r stored)
    refine ⟨⟨row, selects.1.mem_iff.mp inOrdered, ?_, raised flag⟩, (sound r (member hash r stored) flag).imp_right ?_⟩
    · rw [← name]
      exact (congrArg InsertHeaderRequest.hash request).symm
    · rintro ⟨q, inReported, name, above⟩
      exact ⟨q, by rw [← name]; exact inside q inReported, above⟩
  · intro hash script entry
    cases entry

theorem start_consistent : Consistent start := by
  refine ⟨⟨?_, by decide, ?_⟩, ⟨genesis, rfl, rfl⟩, .nil, ?_, ?_, ?_, ?_, ?_⟩
  · intro hash b stored
    obtain ⟨rfl, rfl⟩ := Chain.default_known stored
    rfl
  · intro hash b stored
    obtain ⟨rfl, rfl⟩ := Chain.default_known stored
    exact ⟨0, _, genesis_totalWork, by decide, Or.inl ⟨rfl, rfl, rfl⟩⟩
  · intro row member
    cases member
  · intro r member
    rw [show r = genesis.request by simpa [start] using member]
    exact ⟨genesis, rfl, rfl⟩
  · intro hash known
    obtain ⟨b, stored⟩ := Option.isSome_iff_exists.mp known
    rw [(Chain.default_known stored).1]
    exact Or.inr (by decide)
  · intro hash b stored flag
    obtain ⟨rfl, rfl⟩ := Chain.default_known stored
    cases flag
  · intro hash script entry
    cases entry

/-- The step lemma of the header store. -/
theorem Consistent.step (kept : s.Consistent) (ready : s.Ready event) (step : s.Step p event t) : t.Consistent := by
  cases event with
  | header header isHeadersync =>
    simp only [Step, next] at step
    split at step
    · cases step
    · next nonempty =>
      cases step
      exact kept.header nonempty
  | deliver task =>
    simp only [Step, next] at step
    split at step
    · cases step
    · next b spawned =>
      cases step
      exact kept.deliver spawned
  | flush =>
    cases step
    exact kept.flush
  | mark blocks =>
    simp only [Step, next] at step
    split at step
    · next w result =>
      cases step
      exact kept.mark result ready
    · cases step
  | restart ordered =>
    simp only [Step, next] at step
    split at step
    · next gate =>
      split at step
      · next w result =>
        cases step
        exact kept.restart gate.1 gate.2 result
      · cases step
    · cases step

/-- Once everything is flushed, each marked block has its flag and script in the
table, and a restart reports the flag that memory has. -/
def Durable (s : HeaderStore) : Prop :=
  s.Flushed → ∀ hash script, s.marked hash = some script → RowMarked s.rows hash script ∧
    ∀ ordered, Selects s.rows ordered → ∃ reported r b, Bitlens.getAllHeaders ordered = .ok reported ∧
      r ∈ reported ∧ r.header.hash = hash ∧ s.chainman.chain.knownHeaders hash = some b ∧
        r.fetchedFull = b.fetchedFull

/-- Flags are durable along every run that marks each block after its row and its
parent. -/
theorem durable_of_run {events : List HeaderEvent}
    (run : Run (Guarded Ready (Step p)) start events s) : s.Durable := by
  have kept := run.invariant (P := Consistent) start_consistent fun _ _ _ kept step => kept.step step.1 step.2
  intro flushed hash script entry
  obtain ⟨⟨b, stored, flag⟩, raised⟩ := kept.marked hash script entry
  refine ⟨raised, fun ordered selects => ?_⟩
  obtain ⟨reported, result, matched, _, complete⟩ := kept.getAllHeaders flushed selects
  have member := (selects.1.map (·.blockHash)).mem_iff.mpr
    (kept.closed flushed (show s.chainman.chain.Known hash by simp [Chain.Known, stored]))
  rw [← Chain.Reports.hashes matched] at member
  obtain ⟨r, inReported, name⟩ := List.mem_map.mp member
  refine ⟨reported, r, b, result, inReported, name, stored, ?_⟩
  rw [flag]
  exact complete r inReported (by rw [name]; exact ⟨b, stored, flag⟩)

/-- The state after some events, where each of them happens. -/
def after (p : Profile) (s : HeaderStore) (events : List HeaderEvent) : HeaderStore :=
  events.foldl (fun s event => (s.next p event).getD s) s

theorem step_of_isSome (happens : (s.next p event).isSome = true) : s.Step p event (after p s [event]) := by
  obtain ⟨t, result⟩ := Option.isSome_iff_exists.mp happens
  simp only [Step, after, List.foldl_cons, List.foldl_nil, result, Option.getD_some]

/-- A block on genesis. -/
def firstHeader : BlockHeaderOwned where
  version := 1
  parent := genesisHeader.hash
  merkleRoot := emptyHash
  timestamp := 1231469665
  bits := 0x1d00ffff
  nonce := 0
  txsCount := 0
  hash := ByteArr.fill 32 2

/-- Genesis is written and marked, the next header is flushed before its block is
marked. -/
def orderlyEvents : List HeaderEvent :=
  [.flush, .mark [(genesisHeader.hash, [4])], .header firstHeader false, .deliver 0, .flush,
    .mark [(firstHeader.hash, [5])]]

theorem durable_of_run_orderly : Durable (after .dev start orderlyEvents) := by
  suffices run : Run (Guarded Ready (Step .dev)) start orderlyEvents (after .dev start orderlyEvents) from
    durable_of_run run
  refine .cons ⟨trivial, step_of_isSome (by decide)⟩ (.cons ⟨⟨by decide, ?_⟩, step_of_isSome (by decide)⟩
    (.cons ⟨trivial, step_of_isSome (by decide)⟩ (.cons ⟨trivial, step_of_isSome (by decide)⟩
      (.cons ⟨trivial, step_of_isSome (by decide)⟩ (.single ⟨⟨by decide, ?_⟩, step_of_isSome (by decide)⟩)))))
  · refine ⟨fun y edge => ?_, trivial⟩
    exact absurd edge (by
      rw [show Chain.parentOf _ genesisHeader.hash = none by decide]
      simp)
  · refine ⟨fun y edge => ?_, trivial⟩
    have top : Chain.parentOf (after .dev start (orderlyEvents.take 5)).chainman.chain firstHeader.hash =
      some genesisHeader.hash := by decide
    have same : y = genesisHeader.hash := Option.some.inj (edge.symm.trans top)
    rw [same]
    exact ⟨_, rfl, rfl⟩

/-- The same block is marked while its insert waits in the batcher. -/
def hastyEvents : List HeaderEvent :=
  [.flush, .mark [(genesisHeader.hash, [4])], .header firstHeader false, .deliver 0,
    .mark [(firstHeader.hash, [5])], .flush]

/-- The update finds no row, and the row inserted later says not fetched. -/
theorem durable_of_run_fails :
    ¬ ∀ (p : Profile) (events : List HeaderEvent) (s : HeaderStore), Run (Step p) start events s → s.Durable := by
  intro claim
  have run : Run (Step .dev) start hastyEvents (after .dev start hastyEvents) :=
    .cons (step_of_isSome (by decide)) (.cons (step_of_isSome (by decide)) (.cons (step_of_isSome (by decide))
      (.cons (step_of_isSome (by decide)) (.cons (step_of_isSome (by decide))
        (.single (step_of_isSome (by decide)))))))
  obtain ⟨⟨row, inRows, name, flag, _⟩, _⟩ := claim _ _ _ run (by decide) firstHeader.hash [5] (by decide)
  have unflagged : ∀ row ∈ (after .dev start hastyEvents).rows, row.blockHash = firstHeader.hash →
      row.fetchedFull = false := by decide
  rw [unflagged row inRows name] at flag
  cases flag

end HeaderStore

end Bitlens

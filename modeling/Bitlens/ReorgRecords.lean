import Bitlens.LedgerRecords

namespace Bitlens
open Lib

variable {p : Profile} {sha256 : Bytes → Hash} {scripts : Scripts} {block : Block} {stores : Stores}
  {repeated : Hash → Prop}

/-! The lookup tasks. -/

section Lookups

variable {selfTxs : Hash → Option Tx} {lookup : Nat → Option (List TxOut)}

/-- A task is spawned for each input that spends no output of the block. -/
theorem pendingDeps_handles_eq {txins depsHandles handles : List TxIn} {pending : List (TxOut ⊕ Nat)}
    (spawned : pendingDeps selfTxs txins depsHandles = .ok (pending, handles)) :
    handles = depsHandles ++ txins.filter fun txin => (selfTxs txin.prevoutHash).isNone := by
  induction txins generalizing depsHandles handles pending with
  | nil =>
    cases spawned
    exact (List.append_nil _).symm
  | cons txin rest ih =>
    rw [pendingDeps] at spawned
    split at spawned
    · next source own =>
      obtain ⟨_, _, spawned⟩ := Outcome.bind_eq_ok.mp spawned
      obtain ⟨⟨_, _⟩, atRest, shape⟩ := Outcome.bind_eq_ok.mp spawned
      cases shape
      rw [List.filter_cons_of_neg (by rw [own]; exact Bool.false_ne_true)]
      exact ih atRest
    · next foreign =>
      obtain ⟨⟨_, _⟩, atRest, shape⟩ := Outcome.bind_eq_ok.mp spawned
      cases shape
      rw [List.filter_cons_of_pos (by rw [foreign]; rfl), ih atRest, List.append_assoc]
      rfl

theorem exists_pendingDeps {txins depsHandles : List TxIn} (own : ∀ txin ∈ txins, ∀ source,
      selfTxs txin.prevoutHash = some source → ∃ dep, source.txouts[txin.prevoutIndex.toNat]? = some dep) :
    ∃ spawned, pendingDeps selfTxs txins depsHandles = .ok spawned := by
  induction txins generalizing depsHandles with
  | nil => exact ⟨_, rfl⟩
  | cons txin rest ih =>
    have later := fun other member => own other (List.mem_cons_of_mem _ member)
    rw [pendingDeps]
    cases atHash : selfTxs txin.prevoutHash with
    | none =>
      obtain ⟨spawned, atRest⟩ := @ih (depsHandles ++ [txin]) later
      exact ⟨_, by dsimp only; rw [atRest]; rfl⟩
    | some source =>
      obtain ⟨dep, inside⟩ := own txin List.mem_cons_self source atHash
      obtain ⟨spawned, atRest⟩ := @ih depsHandles later
      exact ⟨_, by dsimp only; rw [inside, Outcome.unwrap_some, Outcome.ok_bind, atRest]; rfl⟩

/-- When each input has its output, in the block or from its task, the dependencies are these. -/
theorem dependencies_of_found {R : TxIn → TxOut → Prop} {txins : List TxIn} {task : Nat}
    (own : ∀ txin ∈ txins, ∀ source, selfTxs txin.prevoutHash = some source →
      ∃ dep, source.txouts[txin.prevoutIndex.toNat]? = some dep ∧ R txin dep)
    (looked : ∀ i txin, (txins.filter fun txin => (selfTxs txin.prevoutHash).isNone)[i]? = some txin →
      ∃ dep, taskOutput lookup (task + i) txin = some dep ∧ R txin dep) :
    ∃ deps, dependencies selfTxs lookup task txins = some deps ∧ List.Forall₂ R txins deps := by
  induction txins generalizing task with
  | nil => exact ⟨[], rfl, .nil⟩
  | cons txin rest ih =>
    have later := fun other member => own other (List.mem_cons_of_mem _ member)
    rw [dependencies]
    cases atHash : selfTxs txin.prevoutHash with
    | some source =>
      obtain ⟨dep, inside, right⟩ := own txin List.mem_cons_self source atHash
      rw [List.filter_cons_of_neg (by rw [atHash]; exact Bool.false_ne_true)] at looked
      obtain ⟨deps, found, rights⟩ := ih later looked
      exact ⟨dep :: deps, by simp only [inside, Option.bind_some, found, Option.map_some], .cons right rights⟩
    | none =>
      rw [List.filter_cons_of_pos (by rw [atHash]; rfl)] at looked
      obtain ⟨dep, output, right⟩ := looked 0 txin rfl
      obtain ⟨deps, found, rights⟩ := @ih (task + 1) later fun i other atI => by
        have next := looked (i + 1) other (by simpa using atI)
        rwa [show task + (i + 1) = task + 1 + i by omega] at next
      rw [Nat.add_zero] at output
      exact ⟨dep :: deps, by simp only [output, Option.bind_some, found, Option.map_some], .cons right rights⟩

end Lookups

/-- The outputs of a recorded transaction are read back. -/
theorem Recorded.getTransactionOutputs (recorded : Recorded p scripts stores block) {tx : Tx} (member : tx ∈ block.txs)
    (readable : tx.Readable) : Bitlens.getTransactionOutputs stores.txouts tx.hash = .ok tx.txouts := by
  obtain ⟨analyzed, analyzes, txs, _⟩ := recorded
  obtain ⟨record, inAnalyzed, each⟩ := exists_right analyzes.2 member
  have found := (txs record inAnalyzed).2
  rw [each.hash] at found
  exact each.getTransactionOutputs readable found

/-- The block of a recorded hash is put together again. -/
theorem Recorded.getBlock {c : Chain} {known : BlockHeaderWithNumber} (recorded : Recorded p scripts stores block)
    (count : block.txs.length < 2 ^ 40) (readable : ∀ tx ∈ block.txs, tx.Readable)
    (found : c.knownHeaders block.header.hash = some known) :
    Bitlens.getBlock c stores block.header.hash true = .ok ⟨known.header, block.txs.map Tx.withoutTxouts⟩ := by
  obtain ⟨analyzed, analyzes, txs, listed, _⟩ := recorded
  rw [← analyzes.1] at listed
  have entries := getBlockTxEntries_ok listed (by rw [← analyzes.2.length_eq]; exact lt_trans count (by decide))
  rw [analyzes.1] at entries
  have each : ∀ tx ∈ block.txs, ∃ v, getAnalyzedTx stores.txs tx.hash = .ok v ∧ v.tx = tx.withoutTxouts := by
    intro tx member
    obtain ⟨record, inAnalyzed, analyzesTx⟩ := exists_right analyzes.2 member
    have found := (txs record inAnalyzed).1
    rw [analyzesTx.hash] at found
    obtain ⟨v, read, shape, _⟩ := analyzesTx.getAnalyzedTx (readable tx member) found
    exact ⟨v, read, shape⟩
  obtain ⟨vs, pairs⟩ := forall₂_of_forall_exists each
  have shapes : vs.map AnalyzedTx.tx = block.txs.map Tx.withoutTxouts := by
    rw [← List.forall₂_eq_eq_eq, List.forall₂_map_left_iff, List.forall₂_map_right_iff]
    exact pairs.flip.imp fun v tx both => both.2
  have hashes : (analyzed.txs.map SerializedTx.entry).map (·.hash) = block.txs.map (·.hash) := by
    rw [List.map_map]
    exact analyzes.hashes
  have read : getAnalyzedTxs stores.txs (analyzed.txs.map SerializedTx.entry) = .ok vs := by
    rw [getAnalyzedTxs_eq_ok, hashes, List.forall₂_map_left_iff]
    exact pairs.imp fun tx v both => both.1
  rw [Bitlens.getBlock, found, Outcome.orErr_some, Outcome.ok_bind, entries, Outcome.ok_bind, read, Outcome.ok_bind,
    ← shapes]
  rfl

namespace Ledger

/-- What the watcher relies on: the queue takes the blocks up in an order in which each block of the main
chain, and each below a queued one, comes for the last time before what is built on it; blocks of one branch
are apart; and a block that only such blocks follow has its records. The blocks in `repeated` are left out: a
later block of the main chain has one of their transactions again. -/
structure Sound (p : Profile) (scripts : Scripts) (repeated : Hash → Prop) (s : Ledger) : Prop where
  topped : s.chainman.chain.Topped
  tracks : s.chainman.chain.TracksMain
  scheduled : Scheduled s.chainman.chain.Known s.chainman.chain.parentOf s.chainman.chain.topHeader.header.hash
    (s.written.map (·.header.hash)) (s.queue.map (·.hash))
  count : ∀ block ∈ s.written, block.txs.length < 2 ^ 40
  readable : ∀ block ∈ s.written, ∀ tx ∈ block.txs, tx.Readable
  same : ∀ block ∈ s.written, ∀ other ∈ s.written, block.header.hash = other.header.hash → block = other
  funded : ∀ block ∈ s.written, ∀ txin ∈ block.spends, s.Funded repeated block txin
  apart : s.written.Pairwise fun earlier later =>
    ¬ repeated earlier.header.hash → BuiltOn s.chainman.chain.parentOf later.header.hash earlier.header.hash →
      earlier.Apart later
  kept : ∀ front block back, s.written = front ++ block :: back → ¬ repeated block.header.hash →
    (∀ later ∈ back, block.Apart later) → Recorded p scripts s.stores block
  origin : ∀ outpoint value, s.stores.spends outpoint = some value → ∃ block ∈ s.written, block.Spends outpoint value

variable {s t : Ledger} {hash : Hash}

/-- A block that has settled has its records. -/
theorem Sound.settled (sound : s.Sound p scripts repeated) (once : ¬ repeated hash)
    (settles : Settles s.chainman.chain.parentOf (s.written.map (·.header.hash)) hash) :
    ∃ block ∈ s.written, block.header.hash = hash ∧ Recorded p scripts s.stores block := by
  obtain ⟨names, others, whole, built⟩ := settles
  obtain ⟨front, rest, split, rfl, behind⟩ := List.map_eq_append_iff.mp whole
  obtain ⟨block, back, rfl, rfl, rfl⟩ := List.map_eq_cons_iff.mp behind
  have above : ∀ later ∈ back, BuiltOn s.chainman.chain.parentOf later.header.hash block.header.hash :=
    fun later member => built _ (List.mem_map_of_mem member)
  have apart := sound.apart
  rw [split] at apart
  have behind := (List.pairwise_cons.mp (List.pairwise_append.mp apart).2.1).1
  refine ⟨block, by simp [split], rfl, ?_⟩
  exact sound.kept front block back split once fun later member => behind later member once (above later member)

/-- An output of a transaction of the block or of a written block. -/
def PaysFor (s : Ledger) (block : Block) (txin : TxIn) (txout : TxOut) : Prop :=
  ∃ funder, (funder = block ∨ funder ∈ s.written) ∧ ∃ tx ∈ funder.txs, tx.hash = txin.prevoutHash ∧
    tx.txouts[txin.prevoutIndex.toNat]? = some txout

/-- No lookup of a lawful block at the front fails: what it spends is in a block that has settled. -/
theorem Sound.lookups_found (sound : s.Sound p scripts repeated) (lawful : s.Lawful repeated block) {entry : QueueEntry}
    {queue : List QueueEntry} (waiting : s.queue = entry :: queue) (fits : block.header.hash = entry.hash) :
    ∃ deps, dependencies (selfTxs block) (lookupOutputs s.stores block) 0 block.spends = some deps ∧
      List.Forall₂ (s.PaysFor block) block.spends deps := by
  have own : ∀ txin ∈ block.spends, ∀ source, selfTxs block txin.prevoutHash = some source →
      ∃ dep, source.txouts[txin.prevoutIndex.toNat]? = some dep ∧ s.PaysFor block txin dep := by
    intro txin spent source found
    obtain ⟨source', inBlock, hash, rfl⟩ := (foldl_mapInsert_origin found).resolve_right nofun
    obtain ⟨funder, tx, place, member, named, inside⟩ := lawful.funded txin spent
    rcases place with rfl | ⟨inWritten, once, built⟩
    · obtain rfl := List.inj_on_of_nodup_map lawful.distinct inBlock member (hash.trans named.symm)
      have output := List.getElem?_eq_getElem inside
      exact ⟨_, output, funder, Or.inl rfl, source', inBlock, named, output⟩
    · exact absurd (named.trans hash.symm) ((lawful.apart funder inWritten built).txs tx member source' inBlock)
  obtain ⟨⟨pending, handles⟩, spawned⟩ := @exists_pendingDeps _ _ [] fun txin spent source found =>
    (own txin spent source found).imp fun dep both => both.1
  refine dependencies_of_found own fun i txin atI => ?_
  obtain ⟨spent, foreign⟩ := List.mem_filter.mp (List.mem_of_getElem? atI)
  obtain ⟨funder, tx, place, member, named, inside⟩ := lawful.funded txin spent
  rcases place with rfl | ⟨inWritten, once, built⟩
  · have self : selfTxs funder tx.hash = some tx := foldl_mapInsert_of_nodup lawful.distinct member
    rw [named] at self
    rw [self] at foreign
    cases foreign
  · have scheduled := sound.scheduled
    rw [waiting, List.map_cons, ← fits] at scheduled
    obtain ⟨other, inWritten', hash, recorded⟩ := sound.settled once (scheduled.next_settles built)
    obtain rfl := sound.same other inWritten' funder inWritten hash
    have read := recorded.getTransactionOutputs member (sound.readable other inWritten tx member)
    have output := List.getElem?_eq_getElem inside
    refine ⟨_, ?_, other, Or.inr inWritten, tx, member, named, output⟩
    have task : handles[i]? = some txin := by
      rw [pendingDeps_handles_eq spawned, List.nil_append]
      exact atI
    rw [Nat.zero_add, taskOutput, lookupOutputs, spawned]
    dsimp only
    rw [task, Option.bind_some, storedOutputs, ← named, read, Option.bind_some, output]

/-! The steps. -/

/-- What a lawful block does that arrives at the watcher: at the front of the queue it is taken, its records
are written and it is marked, elsewhere it is ignored. -/
inductive Writes (p : Profile) (scripts : Scripts) (s : Ledger) (block : Block) : Ledger → Prop
  | ignores : Writes p scripts s block s
  | writes {entry : QueueEntry} {queue : List QueueEntry} {analyzed : AnalyzedBlock} {coinbaseAscii : Bytes}
      {w : Chainman} {stores : Stores} : s.queue = entry :: queue → block.header.hash = entry.hash →
      AnalyzesBlock p scripts block analyzed →
      s.chainman.markAsDownloaded [(block.header.hash, coinbaseAscii)] = .ok w →
      StoresBatch p [analyzed] s.stores stores →
      Writes p scripts s block ⟨⟨w, queue⟩, stores, s.written ++ [block]⟩

theorem Sound.writes (sound : s.Sound p scripts repeated) {env : Surroundings}
    (orderly : s.Orderly p repeated (.block block env)) (step : Step p sha256 scripts s (.block block env) t) :
    Writes p scripts s block t := by
  obtain ⟨effects, handled, kept⟩ := step
  obtain ⟨⟨w, queue⟩, stores, written⟩ := t
  rw [handleNewBlock_of_block] at handled
  split at handled
  · next entry rest taken =>
    obtain ⟨waiting, fits⟩ := takeBlock_some taken
    have known : s.chainman.chain.Known block.header.hash := by
      refine sound.scheduled.members _ (List.mem_append_right _ ?_)
      rw [fits, show s.queue = entry :: rest from waiting]
      exact List.mem_cons_self
    split at handled
    · next w' done returned applied =>
      cases handled
      rcases applyBlock_cases sound.topped known applied with
        ⟨rfl, rfl, failed⟩ | ⟨analyzed, _, analyzes, _, marked, rfl⟩
      · obtain ⟨deps, found, _⟩ := sound.lookups_found (orderly _ _ waiting fits) waiting fits
        obtain ⟨pending, handles, owned, spawned, awaited, _⟩ := (@dependencies_eq_some _ _ _ [] _ _ rfl).mp found
        obtain ⟨pending', handles', spawned', missing⟩ := failed rfl
        cases spawned.symm.trans spawned'
        cases missing.symm.trans awaited
      · obtain ⟨stored, rfl⟩ := kept
        exact .writes waiting fits analyzes marked stored
    · cases handled
  · obtain ⟨same, _⟩ := Prod.mk.inj handled
    obtain ⟨watcher, rfl⟩ := Keepup.mk.inj same
    obtain ⟨rfl, rfl⟩ := kept
    have same : (⟨⟨w, queue⟩, s.stores, s.written⟩ : Ledger) = s :=
      congrArg (fun watcher => (⟨watcher, s.stores, s.written⟩ : Ledger)) watcher.symm
    rw [same]
    exact .ignores
  · cases (Prod.mk.inj handled).2

theorem Funded.mono {txin : TxIn} (funded : s.Funded repeated block txin)
    (written : ∀ other ∈ s.written, other ∈ t.written)
    (built : ∀ x, BuiltOn s.chainman.chain.parentOf block.header.hash x →
      BuiltOn t.chainman.chain.parentOf block.header.hash x) :
    t.Funded repeated block txin := by
  obtain ⟨funder, tx, place, rest⟩ := funded
  exact ⟨funder, tx, place.imp_right fun ⟨member, once, below⟩ => ⟨written funder member, once, built _ below⟩, rest⟩

/-- The tree grows or is marked under the same top. -/
theorem Sound.grow {w : Chainman} {marked : List Hash} (sound : s.Sound p scripts repeated) (topped : w.chain.Topped)
    (later : s.chainman.chain.Later w.chain marked) (top : w.chain.topHeader.header = s.chainman.chain.topHeader.header)
    (set : w.chain.mostWorkChain = s.chainman.chain.mostWorkChain) :
    Sound p scripts repeated { s with chainman := w } := by
  have rooted := sound.topped.rooted
  have scheduled := sound.scheduled
  have agree : ∀ y, s.chainman.chain.Known y → ∀ x,
      Descends w.chain.parentOf y x ↔ Descends s.chainman.chain.parentOf y x :=
    fun y known x => later.descends rooted known
  have known : ∀ block ∈ s.written, s.chainman.chain.Known block.header.hash := fun block member =>
    scheduled.members _ (List.mem_append_left _ (List.mem_map_of_mem member))
  refine ⟨topped, fun hash => ?_, ?_, sound.count, sound.readable, sound.same, fun block member txin spent => ?_, ?_,
    sound.kept, sound.origin⟩
  · change hash ∈ w.chain.mostWorkChain ↔ w.chain.OnMain hash
    rw [set, sound.tracks, later.onMain rooted top]
  · change Scheduled w.chain.Known w.chain.parentOf w.chain.topHeader.header.hash _ _
    rw [top]
    exact scheduled.congr rooted.known_top agree later.known
  · refine (sound.funded block member txin spent).mono (fun _ => id) fun x below => ?_
    exact ⟨(agree _ (known block member) x).mpr below.1, below.2⟩
  · refine sound.apart.imp_of_mem fun {earlier after} _ member apart once built => apart once ⟨?_, built.2⟩
    exact (agree _ (known after member) _).mp built.1

/-- The records of a lawful block at the front are written. -/
theorem Sound.write {entry : QueueEntry} {queue : List QueueEntry} {analyzed : AnalyzedBlock}
    (sound : s.Sound p scripts repeated) (lawful : s.Lawful repeated block) (waiting : s.queue = entry :: queue)
    (fits : block.header.hash = entry.hash) (analyzes : AnalyzesBlock p scripts block analyzed)
    (stored : StoresBatch p [analyzed] s.stores stores) :
    Sound p scripts repeated ⟨⟨s.chainman, queue⟩, stores, s.written ++ [block]⟩ := by
  have writes := overwrites_of_storesBatch stored
  have alike : List.Forall₂ (AnalyzesBlock p scripts) [block] [analyzed] := .cons analyzes .nil
  have scheduled := sound.scheduled
  rw [waiting, List.map_cons, ← fits] at scheduled
  have either : ∀ {q : Block → Prop}, (∀ other ∈ s.written, q other) → q block →
      ∀ other ∈ s.written ++ [block], q other := by
    intro q old new other member
    exact (List.mem_append.mp member).elim (old other) fun last => List.mem_singleton.mp last ▸ new
  refine ⟨sound.topped, sound.tracks, by simpa using scheduled.work, either sound.count lawful.count,
    either sound.readable lawful.readable, either ?_ ?_, either ?_ ?_, ?_, fun front other back split once alone => ?_,
    fun outpoint value found => ?_⟩
  · exact fun earlier member => either (sound.same earlier member) (lawful.same earlier member)
  · exact either (fun earlier member hash => (lawful.same earlier member hash.symm).symm) fun _ => rfl
  · exact fun earlier member txin spent =>
      (sound.funded earlier member txin spent).mono (fun _ => List.mem_append_left _) fun _ => id
  · exact fun txin spent => (lawful.funded txin spent).mono (fun _ => List.mem_append_left _) fun _ => id
  · refine List.pairwise_append.mpr ⟨sound.apart, List.pairwise_singleton _ _, fun earlier member last new _ => ?_⟩
    rw [List.mem_singleton.mp new]
    exact lawful.apart earlier member
  · rcases append_eq_split split with ⟨post, whole, rfl⟩ | ⟨pre, _, rest⟩
    · obtain ⟨others, last⟩ := List.forall_mem_append.mp alone
      have before := sound.kept front other post whole once others
      exact before.keep last alike writes
    · cases pre with
      | nil =>
        obtain ⟨rfl, _⟩ := List.cons.inj rest
        exact writes.recorded_single analyzes lawful.distinct lawful.nonzero
      | cons _ pre => simp at rest
  · rcases writes.spends_cases alike found with old | ⟨other, member, spends⟩
    · obtain ⟨other, member, spends⟩ := sound.origin outpoint value old
      exact ⟨other, List.mem_append_left _ member, spends⟩
    · exact ⟨other, List.mem_append_right _ member, spends⟩

/-- A new top: its branch is queued from the last common ancestor on. -/
theorem Sound.switch {new : BlockHeaderWithNumber} {m : Hash} {w : Watcher} {header : BlockHeaderOwned}
    {entries : List QueueEntry} (sound : s.Sound p scripts repeated)
    (accepted : s.chainman.chain.newHeader p header = .ok (some new))
    (switched : Switched s.toWatcher w new entries m) :
    Sound p scripts repeated { s with toWatcher := w } := by
  have rooted := sound.topped.rooted
  obtain ⟨grows, _⟩ := Chainman.extends_of_newHeader accepted
  have learned := (grows.learn_rooted rooted).1
  have grown := sound.grow (sound.topped.learn accepted) (Chainman.later_learn accepted) rfl rfl
  have known : w.chainman.chain.Known = (s.chainman.learn new).chain.Known := by
    funext hash
    simp only [Chain.Known, switched.known]
  have parents : w.chainman.chain.parentOf = (s.chainman.learn new).chain.parentOf := by
    funext hash
    simp only [Chain.parentOf, switched.known]
  have onNew : (s.chainman.learn new).chain.Known new.header.hash := by simp [Chain.Known, Chainman.learn_known_self]
  have scheduled := grown.scheduled.switch learned.graded onNew switched.common switched.blocks switched.order
    switched.nodup
  refine ⟨(Chain.Topped.of_setTop rooted accepted).congr switched.known switched.top, switched.index sound.tracks, ?_,
    sound.count, sound.readable, sound.same, fun block member txin spent => ?_, ?_, sound.kept, sound.origin⟩
  · change Scheduled w.chainman.chain.Known w.chainman.chain.parentOf w.chainman.chain.topHeader.header.hash _
      (w.queue.map (·.hash))
    rw [known, parents, switched.top, switched.queue, List.map_append]
    exact scheduled
  · refine (grown.funded block member txin spent).mono (fun _ => id) fun x below => ?_
    change BuiltOn w.chainman.chain.parentOf _ x
    rw [parents]
    exact below
  · change s.written.Pairwise fun earlier later => _ → BuiltOn w.chainman.chain.parentOf _ _ → _
    rw [parents]
    exact grown.apart

theorem Sound.step {event : LedgerEvent} (sound : s.Sound p scripts repeated) (orderly : s.Orderly p repeated event)
    (step : Step p sha256 scripts s event t) : t.Sound p scripts repeated := by
  cases event with
  | header header =>
    obtain ⟨handled, sameStores, sameWritten⟩ := step
    obtain ⟨watcher, stores, written⟩ := t
    obtain rfl : stores = s.stores := sameStores
    obtain rfl : written = s.written := sameWritten
    rcases handleNewHeader_switched sound.topped.rooted orderly handled with
      rfl | ⟨new, accepted, rfl | ⟨entries, m, switched⟩⟩
    · exact sound
    · exact sound.grow (sound.topped.learn accepted) (Chainman.later_learn accepted) rfl rfl
    · exact sound.switch accepted switched
  | block block env =>
    cases sound.writes orderly step with
    | ignores => exact sound
    | writes waiting fits analyzes marked stored =>
      have written := sound.write (orderly _ _ waiting fits) waiting fits analyzes stored
      obtain ⟨topped, _, top, later⟩ := Chainman.topped_of_markAsDownloaded sound.topped marked
      exact written.grow topped later top (Bitlens.markAsDownloaded_mostWorkChain marked)

/-! The start. -/

/-- How the watcher finds things when it starts: the blocks of the main chain were written from genesis on,
and nothing waits. -/
structure Ready (p : Profile) (scripts : Scripts) (repeated : Hash → Prop) (s : Ledger) : Prop where
  topped : s.chainman.chain.Topped
  tracks : s.chainman.chain.TracksMain
  idle : s.queue = []
  ordered : (s.written.map (·.header.hash)).Pairwise fun below above => BuiltOn s.chainman.chain.parentOf above below
  complete : ∀ hash, hash ∈ s.written.map (·.header.hash) ↔ s.chainman.chain.OnMain hash
  count : ∀ block ∈ s.written, block.txs.length < 2 ^ 40
  readable : ∀ block ∈ s.written, ∀ tx ∈ block.txs, tx.Readable
  funded : ∀ block ∈ s.written, ∀ txin ∈ block.spends, s.Funded repeated block txin
  apart : s.written.Pairwise fun earlier later => ¬ repeated earlier.header.hash → earlier.Apart later
  recorded : ∀ block ∈ s.written, ¬ repeated block.header.hash → Recorded p scripts s.stores block
  origin : ∀ outpoint value, s.stores.spends outpoint = some value → ∃ block ∈ s.written, block.Spends outpoint value

theorem Ready.sound (ready : s.Ready p scripts repeated) : s.Sound p scripts repeated where
  topped := ready.topped
  tracks := ready.tracks
  scheduled := by
    rw [ready.idle]
    refine .start ready.ordered (fun hash member => ?_) fun hash => (ready.complete hash).mpr
    have rooted := ready.topped.rooted
    exact (rooted.graded.descends rooted.known_top ((ready.complete hash).mp member)).1
  count := ready.count
  readable := ready.readable
  same := by
    have distinct : (s.written.map (·.header.hash)).Nodup := ready.ordered.imp fun built same => built.2 same.symm
    exact fun block member other member' => List.inj_on_of_nodup_map distinct member member'
  funded := ready.funded
  apart := ready.apart.imp fun apart once _ => apart once
  kept front block back whole once _ := ready.recorded block (by simp [whole]) once
  origin := ready.origin

theorem Ready.run {events : List LedgerEvent} (ready : s.Ready p scripts repeated)
    (run : Run (Guarded (Orderly p repeated) (Step p sha256 scripts)) s events t) : t.Sound p scripts repeated :=
  run.invariant ready.sound fun _ _ _ sound step => sound.step step.1 step.2

/-- The records of a main-chain block that does not wait in the queue. -/
theorem Sound.recorded (sound : s.Sound p scripts repeated) (onMain : s.chainman.chain.OnMain hash)
    (done : hash ∉ s.queue.map (·.hash)) (once : ¬ repeated hash) :
    ∃ block ∈ s.written, block.header.hash = hash ∧ Recorded p scripts s.stores block := by
  obtain ⟨front, back, whole, built⟩ := sound.scheduled.main hash onMain
  refine sound.settled once ?_
  rcases append_eq_split whole with ⟨post, early, rfl⟩ | ⟨pre, _, late⟩
  · exact ⟨front, post, early, fun y member => built y (List.mem_append_left _ member)⟩
  · exact absurd (by simp [late]) done

/-- A main-chain block that does not wait is served as it was written. -/
theorem Sound.serves (sound : s.Sound p scripts repeated) (onMain : s.chainman.chain.OnMain hash)
    (done : hash ∉ s.queue.map (·.hash)) (once : ¬ repeated hash) :
    ∃ block ∈ s.written, block.header.hash = hash ∧
      (∃ known, s.chainman.chain.knownHeaders hash = some known ∧
        getBlock s.chainman.chain s.stores hash true = .ok ⟨known.header, block.txs.map Tx.withoutTxouts⟩) ∧
      ∀ tx ∈ block.txs, getTransactionOutputs s.stores.txouts tx.hash = .ok tx.txouts := by
  obtain ⟨block, member, rfl, recorded⟩ := sound.recorded onMain done once
  have rooted := sound.topped.rooted
  obtain ⟨known, found⟩ := Option.isSome_iff_exists.mp (rooted.graded.descends rooted.known_top onMain).1
  have readable := sound.readable block member
  refine ⟨block, member, rfl, ⟨known, found, recorded.getBlock (sound.count block member) readable found⟩, ?_⟩
  exact fun tx inBlock => recorded.getTransactionOutputs inBlock (readable tx inBlock)

/-- What the work on a block needs besides its dependencies: its first transaction has an input, no output is
spent twice in it, and the analysis and the writing return. -/
structure Writable (p : Profile) (scripts : Scripts) (env : Surroundings) (block : Block) (deps : List TxOut) : Prop where
  coinbase : ∃ first ∈ block.txs.head?, first.txins ≠ []
  once : block.outpoints.Nodup
  work : Workable p scripts env.analyzedArena block.header.timestamp.toUInt64 (spending block.txs deps)

/-- The block has left the queue and its records are in the stores. -/
structure Takes (p : Profile) (scripts : Scripts) (s : Ledger) (block : Block) (t : Ledger) : Prop where
  front : ∃ entry, s.queue = entry :: t.queue ∧ entry.hash = block.header.hash
  written : t.written = s.written ++ [block]
  recorded : Recorded p scripts t.stores block

/-- The call for a lawful block at the front returns, and takes it. -/
theorem Sound.returns (sound : s.Sound p scripts repeated) (keyed : scripts.Keyed) (lawful : s.Lawful repeated block)
    {env : Surroundings} {entry : QueueEntry} {queue : List QueueEntry} (waiting : s.queue = entry :: queue)
    (checks : Checks sha256 block entry) {deps : List TxOut}
    (found : dependencies (selfTxs block) (lookupOutputs s.stores block) 0 block.spends = some deps)
    (writable : Writable p scripts env block deps) (shown : env.updateFrontpage entry.strategy = .ok ()) :
    ∃ w stores, s.chainman.markAsDownloaded [(block.header.hash, coinbaseScript block)] = .ok w ∧
      Step p sha256 scripts s (.block block env) ⟨⟨w, queue⟩, stores, s.written ++ [block]⟩ := by
  have known : s.chainman.chain.Known block.header.hash := by
    refine sound.scheduled.members _ (List.mem_append_right _ ?_)
    rw [checks.1, waiting]
    exact List.mem_cons_self
  have applicable : Applicable p scripts (env.reading s.stores block) block s.chainman.chain :=
    ⟨writable.coinbase, known, deps, found, writable.work⟩
  obtain ⟨w, analyzed, analyzes, ⟨a, made⟩, marked, applied⟩ := @applyBlock_of_applicable p scripts _ block entry.strategy _
    sound.topped.held sound.topped.rooted.known_top applicable
  obtain ⟨stores, stored⟩ := analyzes.exists_stored keyed lawful.distinct writable.once made s.stores
  have taken : takeBlock sha256 block s.queue = .ok (some (entry, queue)) := waiting ▸ takeBlock_of_checks checks
  have shown' : (env.reading s.stores block).updateFrontpage entry.strategy = .ok () := shown
  refine ⟨w, stores, marked, [.wroteAnalyzedTxs analyzed, .markedAsDownloaded block.header.hash, .announced entry.hash], ?_,
    stored, rfl⟩
  rw [handleNewBlock_of_block]
  dsimp only
  rw [taken]
  dsimp only
  rw [applied, shown']
  rfl

/-- A step for a lawful block at the front that passes the checks takes it. -/
theorem Sound.takes (sound : s.Sound p scripts repeated) (lawful : s.Lawful repeated block) {env : Surroundings}
    {entry : QueueEntry} {queue : List QueueEntry} (waiting : s.queue = entry :: queue) (checks : Checks sha256 block entry)
    (step : Step p sha256 scripts s (.block block env) t) : Takes p scripts s block t := by
  have orderly : s.Orderly p repeated (.block block env) := fun _ _ _ _ => lawful
  cases sound.writes orderly step with
  | ignores =>
    -- the handler would have returned with the queue that it found
    obtain ⟨effects, handled, _⟩ := step
    rw [handleNewBlock_of_block] at handled
    dsimp only at handled
    rw [waiting, takeBlock_of_checks checks] at handled
    dsimp only at handled
    split at handled
    · have same := congrArg (fun result : Keepup × Outcome Unit => result.1.queue.length) handled
      simp [waiting] at same
    · cases (Prod.mk.inj handled).2
  | writes waiting' fits analyzes marked stored =>
    have writes := overwrites_of_storesBatch stored
    exact ⟨⟨_, waiting', fits.symm⟩, rfl, writes.recorded_single analyzes lawful.distinct lawful.nonzero⟩

/-- Whatever headers come, reorganisations included: what a lawful block at the front spends is found, so that
its records are written when the work on it returns, and each block of the main chain that does not wait is
served as it was written. -/
theorem serves_main_chain {s t : Ledger} {events : List LedgerEvent} (keyed : scripts.Keyed)
    (ready : s.Ready p scripts repeated) (run : Run (Guarded (Orderly p repeated) (Step p sha256 scripts)) s events t) :
    (∀ block env entry queue, t.queue = entry :: queue → Checks sha256 block entry → t.Lawful repeated block →
      (∃ deps, dependencies (selfTxs block) (lookupOutputs t.stores block) 0 block.spends = some deps ∧
        List.Forall₂ (t.PaysFor block) block.spends deps ∧
          (Writable p scripts env block deps → env.updateFrontpage entry.strategy = .ok () →
            ∃ u, Step p sha256 scripts t (.block block env) u)) ∧
        ∀ u, Step p sha256 scripts t (.block block env) u → Takes p scripts t block u) ∧
    ∀ hash, t.chainman.chain.OnMain hash → hash ∉ t.queue.map (·.hash) → ¬ repeated hash →
      ∃ block ∈ t.written, block.header.hash = hash ∧
        (∃ known, t.chainman.chain.knownHeaders hash = some known ∧
          getBlock t.chainman.chain t.stores hash true = .ok ⟨known.header, block.txs.map Tx.withoutTxouts⟩) ∧
        ∀ tx ∈ block.txs, getTransactionOutputs t.stores.txouts tx.hash = .ok tx.txouts := by
  have sound := ready.run run
  refine ⟨fun block env entry queue waiting checks lawful => ⟨?_, fun u => sound.takes lawful waiting checks⟩,
    fun hash => sound.serves⟩
  obtain ⟨deps, found, pays⟩ := sound.lookups_found lawful waiting checks.1
  refine ⟨deps, found, pays, fun writable shown => ?_⟩
  obtain ⟨w, stores, _, step⟩ := sound.returns keyed lawful waiting checks found writable shown
  exact ⟨_, step⟩

/-! Genesis is written. Then come two children of it, and a block on the second one that spends its coinbase. -/

def coinbaseOf (name : UInt8) : Tx :=
  ⟨1, 0, [⟨emptyHash, 0xFFFFFFFF, 0, []⟩], [⟨50, [81]⟩], none, sampleHash name, sampleHash name⟩

/-- Spends the coinbase with the name 5. -/
def spendingTx : Tx :=
  ⟨1, 0, [⟨sampleHash 5, 0, 0, []⟩], [⟨49, [81]⟩], none, sampleHash 7, sampleHash 7⟩

def blockOn (parent : Hash) (name : Nat) (txs : List Tx) : Block where
  header := { sampleHeader 0 0 with parent := parent, hash := ⟨leBytes 32 name, length_leBytes _ _⟩ }
  txs := txs

def genesisBlock : Block := ⟨genesisHeader, [coinbaseOf 4]⟩

def childBlock (name : Nat) : Block := blockOn genesisHeader.hash name [coinbaseOf 5]

def spenderBlock : Block := blockOn (childBlock 2).header.hash 3 [coinbaseOf 6, spendingTx]

def onlyGenesis (stores : Stores) : Ledger := ⟨⟨startChainman, []⟩, stores, [genesisBlock]⟩

theorem genesis_onMain {hash : Hash} : Chain.default.OnMain hash ↔ hash = genesisHeader.hash := by
  have alone : Chain.default.parentOf genesisHeader.hash = none := by decide
  refine ⟨fun below => ?_, fun same => same ▸ .refl _⟩
  rcases descends_iff_eq_or.mp below with same | ⟨next, edge, _⟩
  · exact same
  · cases alone.symm.trans edge

theorem coinbaseOf_readable (name : UInt8) : (coinbaseOf name).Readable :=
  ⟨rfl, nofun, by
    have same : serializeTx (coinbaseOf name) = serializeTx (coinbaseOf 0) := rfl
    rw [same]
    decide⟩

theorem coinbaseOf_returns (name : UInt8) (timestamp : UInt64) :
    ScriptsReturn checkedScripts timestamp (coinbaseOf name, []) := by
  have counted : checkedScripts.getTransactionSigopCost (coinbaseOf 0) [] = .ok 0 := by decide +kernel
  exact ⟨⟨0, counted⟩, none, rfl⟩

theorem spendingTx_returns (timestamp : UInt64) : ScriptsReturn checkedScripts timestamp (spendingTx, [⟨50, [81]⟩]) := by
  have counted : checkedScripts.getTransactionSigopCost spendingTx [⟨50, [81]⟩] = .ok 0 := by decide +kernel
  exact ⟨⟨0, counted⟩, none, rfl⟩

/-- The watcher behind a block at the front of its queue. -/
def withBlock (w : Watcher) (block : Block) : Watcher :=
  match w.chainman.markAsDownloaded [(block.header.hash, coinbaseScript block)] with
  | .ok chainman => ⟨chainman, w.queue.tail⟩
  | _ => w

def withHeader (w : Watcher) (block : Block) : Watcher :=
  (handleNewHeader .dev block.header w).1

theorem genesis_ready : ∃ stores, (onlyGenesis stores).Ready .dev checkedScripts fun _ => False := by
  obtain ⟨records, totals, analyzed, a, made⟩ := (@analyzed_iff .dev checkedScripts genesisHeader [(coinbaseOf 4, [])]
    genesisHeader.hash).mpr ⟨List.forall_mem_singleton.mpr (coinbaseOf_returns 4 _),
      fun _ => ⟨List.forall_mem_singleton.mpr nofun, by decide, by decide⟩,
      fun _ => List.forall_mem_singleton.mpr ⟨[], rfl⟩⟩
  have analyzes : AnalyzesBlock .dev checkedScripts genesisBlock ⟨genesisHeader.hash, records⟩ :=
    @analyzesBlock_of_records _ _ genesisBlock [] _ _ _ _ analyzed
  have distinct : (genesisBlock.txs.map (·.hash)).Nodup := List.nodup_singleton _
  obtain ⟨stores, stored⟩ := analyzes.exists_stored checkedScripts_keyed distinct List.nodup_nil made .empty
  have writes := overwrites_of_storesBatch stored
  refine ⟨stores, ⟨Chain.default_grown.rooted, Or.inl rfl, fun flag =>
      absurd (show Chain.default.topHeader.fetchedFull = true from flag) (by decide)⟩,
    fun hash => Finset.mem_singleton.trans genesis_onMain.symm, rfl, List.pairwise_singleton _ _,
    fun hash => List.mem_singleton.trans genesis_onMain.symm, List.forall_mem_singleton.mpr (by decide),
    List.forall_mem_singleton.mpr (List.forall_mem_singleton.mpr (coinbaseOf_readable 4)), List.forall_mem_singleton.mpr nofun,
    List.pairwise_singleton _ _, List.forall_mem_singleton.mpr fun _ => ?_, fun outpoint value found => ?_⟩
  · exact writes.recorded_single analyzes distinct (List.forall_mem_singleton.mpr (by decide))
  · rcases writes.spends_cases (.cons analyzes .nil) found with before | origin
    · cases before
    · exact origin

/-- Runs of the watcher behind genesis. -/
def Reaches (start : Stores) (t : Ledger) : Prop :=
  ∃ events, Run (Guarded (Orderly .dev fun _ => False) (Step .dev (fun _ => emptyHash) checkedScripts)) (onlyGenesis start) events t

theorem withHeader_steps {start : Stores} {s : Ledger} (reaches : Reaches start s) {block : Block}
    (accepted : (handleNewHeader .dev block.header s.toWatcher).2 = .ok ()) :
    Reaches start { s with toWatcher := withHeader s.toWatcher block } := by
  obtain ⟨events, run⟩ := reaches
  have free : s.Orderly .dev (fun _ => False) (.header block.header) := fun _ _ _ => nofun
  exact ⟨_, run.snoc ⟨free, Prod.ext rfl accepted, rfl, rfl⟩⟩

theorem withBlock_steps {start : Stores} (ready : (onlyGenesis start).Ready .dev checkedScripts fun _ => False) {s : Ledger}
    (reaches : Reaches start s) {block : Block} {number : Nat} (low : number < segwitHeight)
    (waiting : s.queue = [⟨number, block.header.hash, .append⟩]) (lawful : s.Lawful (fun _ => False) block)
    (writable : ∀ deps, List.Forall₂ (s.PaysFor block) block.spends deps →
      Writable .dev checkedScripts (surroundings none) block deps) :
    ∃ stores, Reaches start ⟨withBlock s.toWatcher block, stores, s.written ++ [block]⟩ := by
  obtain ⟨events, run⟩ := reaches
  have sound := ready.run run
  have checks : Checks (fun _ => emptyHash) block ⟨number, block.header.hash, .append⟩ :=
    ⟨rfl, fun segwit => absurd segwit (Nat.not_le_of_lt low)⟩
  obtain ⟨deps, found, pays⟩ := sound.lookups_found lawful waiting rfl
  obtain ⟨w, stores, marked, step⟩ := sound.returns checkedScripts_keyed lawful waiting checks found (writable deps pays) rfl
  have same : withBlock s.toWatcher block = ⟨w, []⟩ := by
    rw [withBlock, marked, waiting]
    rfl
  have orderly : s.Orderly .dev (fun _ => False) (.block block (surroundings none)) := fun _ _ _ _ => lawful
  exact ⟨stores, _, same ▸ run.snoc ⟨orderly, step⟩⟩

/-- The watcher behind the first child, behind the second one, which is on another branch, and with the header
of the block on it. -/
def oneChild : Watcher := withBlock (withHeader ⟨startChainman, []⟩ (childBlock 1)) (childBlock 1)

def twoChildren : Watcher := withBlock (withHeader oneChild (childBlock 2)) (childBlock 2)

def spenderWaits : Watcher := withHeader twoChildren spenderBlock

theorem samples_accepted : (handleNewHeader .dev (childBlock 1).header ⟨startChainman, []⟩).2 = .ok () ∧
    (handleNewHeader .dev (childBlock 2).header oneChild).2 = .ok () ∧
      (handleNewHeader .dev spenderBlock.header twoChildren).2 = .ok () := by decide

theorem samples_wait : (withHeader ⟨startChainman, []⟩ (childBlock 1)).queue = [⟨1, (childBlock 1).header.hash, .append⟩] ∧
    (withHeader oneChild (childBlock 2)).queue = [⟨1, (childBlock 2).header.hash, .append⟩] ∧
      spenderWaits.queue = [⟨2, spenderBlock.header.hash, .append⟩] := by decide

/-- The path below a sample block, by the parents that the watcher knows. -/
theorem not_builtOn {parent : Hash → Option Hash} {child other : Hash} (edge : parent child = some genesisHeader.hash)
    (root : parent genesisHeader.hash = none) (apart : genesisHeader.hash ≠ other) : ¬ BuiltOn parent child other := by
  intro built
  rcases descends_iff_eq_or.mp built.1 with same | ⟨next, up, below⟩
  · exact built.2 same.symm
  · cases edge.symm.trans up
    rcases descends_iff_eq_or.mp below with same | ⟨next, up, _⟩
    · exact apart same.symm
    · cases root.symm.trans up

theorem childBlock_lawful {s : Ledger} {name : Nat}
    (fresh : ∀ earlier ∈ s.written, earlier.header.hash ≠ (childBlock name).header.hash)
    (alone : ∀ earlier ∈ s.written, earlier = genesisBlock ∨
      ¬ BuiltOn s.chainman.chain.parentOf (childBlock name).header.hash earlier.header.hash) :
    s.Lawful (fun _ => False) (childBlock name) where
  count := show 1 < 2 ^ 40 by decide
  readable := List.forall_mem_singleton.mpr (coinbaseOf_readable 5)
  nonzero := List.forall_mem_singleton.mpr (by decide)
  distinct := List.nodup_singleton _
  same earlier member hash := absurd hash (fresh earlier member)
  apart earlier member built := by
    rcases alone earlier member with rfl | other
    · exact ⟨fresh _ member, show ∀ tx ∈ [coinbaseOf 4], ∀ tx' ∈ [coinbaseOf 5], tx.hash ≠ tx'.hash by decide, nofun⟩
    · exact absurd built other
  funded := nofun

theorem childBlock_writable {s : Ledger} {name : Nat} (deps : List TxOut)
    (pays : List.Forall₂ (s.PaysFor (childBlock name)) (childBlock name).spends deps) :
    Writable .dev checkedScripts (surroundings none) (childBlock name) deps := by
  obtain rfl : deps = [] := List.forall₂_nil_left_iff.mp pays
  have work : Workable .dev checkedScripts analysisArena 0 [(coinbaseOf 5, [])] :=
    ⟨List.forall_mem_singleton.mpr (coinbaseOf_returns 5 _),
      fun _ => ⟨List.forall_mem_singleton.mpr nofun, by decide, by decide⟩,
      fun _ => List.forall_mem_singleton.mpr ⟨[], rfl⟩, by decide⟩
  exact ⟨⟨_, rfl, List.cons_ne_nil _ _⟩, List.nodup_nil, work⟩

theorem spenderBlock_lawful (stores : Stores) :
    Lawful ⟨spenderWaits, stores, [genesisBlock, childBlock 1, childBlock 2]⟩ (fun _ => False) spenderBlock := by
  have edge : spenderWaits.chainman.chain.parentOf spenderBlock.header.hash = some (childBlock 2).header.hash := by decide
  have other : ¬ BuiltOn spenderWaits.chainman.chain.parentOf (childBlock 2).header.hash (childBlock 1).header.hash :=
    not_builtOn (by decide) (by decide) (by decide)
  refine ⟨by decide, List.forall_mem_cons.mpr ⟨coinbaseOf_readable 6, List.forall_mem_singleton.mpr ⟨rfl, nofun, by decide⟩⟩,
    by decide, by decide, fun earlier member hash => ?_, fun earlier member built => ?_, fun txin spent => ?_⟩
  · simp only [List.mem_cons, List.not_mem_nil, or_false] at member
    rcases member with rfl | rfl | rfl <;> exact absurd hash (by decide)
  · simp only [List.mem_cons, List.not_mem_nil, or_false] at member
    rcases member with rfl | rfl | rfl
    · exact ⟨by decide, by decide, by decide⟩
    · refine absurd ?_ other
      rcases descends_iff_eq_or.mp built.1 with same | ⟨next, up, below⟩
      · exact absurd same (by decide)
      · cases edge.symm.trans up
        exact ⟨below, by decide⟩
    · exact ⟨by decide, by decide, by decide⟩
  · have single : spenderBlock.spends = [⟨sampleHash 5, 0, 0, []⟩] := rfl
    rw [single] at spent
    rw [List.mem_singleton.mp spent]
    exact ⟨childBlock 2, coinbaseOf 5, Or.inr ⟨by simp, id, .of_parent edge, by decide⟩, List.mem_singleton_self _, rfl,
      by decide⟩

/-- The only output for the input of the spender is that of the coinbase. -/
theorem spenderBlock_pays {w : Watcher} {stores : Stores} {deps : List TxOut} (pays : List.Forall₂
      (PaysFor ⟨w, stores, [genesisBlock, childBlock 1, childBlock 2]⟩ spenderBlock) spenderBlock.spends deps) :
    deps = [⟨50, [81]⟩] := by
  have single : spenderBlock.spends = [⟨sampleHash 5, 0, 0, []⟩] := rfl
  rw [single] at pays
  cases pays with
  | @cons _ dep _ rest first rest =>
    obtain rfl := List.forall₂_nil_left_iff.mp rest
    obtain ⟨funder, place, tx, member, named, inside⟩ := first
    have paid : tx = coinbaseOf 5 := by
      have others : ∀ other ∈ [coinbaseOf 4, coinbaseOf 6, spendingTx], other.hash ≠ sampleHash 5 := by decide
      simp only [List.mem_cons, List.not_mem_nil, or_false] at place
      rcases place with rfl | rfl | rfl | rfl
      · exact absurd named (others tx (List.mem_cons_of_mem _ member))
      · exact absurd named (others tx (List.mem_cons.mpr (Or.inl (List.mem_singleton.mp member))))
      · exact List.mem_singleton.mp member
      · exact List.mem_singleton.mp member
    subst paid
    cases inside
    rfl

theorem spenderBlock_writable {w : Watcher} {stores : Stores} (deps : List TxOut) (pays : List.Forall₂
      (PaysFor ⟨w, stores, [genesisBlock, childBlock 1, childBlock 2]⟩ spenderBlock) spenderBlock.spends deps) :
    Writable .dev checkedScripts (surroundings none) spenderBlock deps := by
  obtain rfl := spenderBlock_pays pays
  refine ⟨⟨_, rfl, List.cons_ne_nil _ _⟩, by decide, List.forall_mem_cons.mpr ⟨coinbaseOf_returns 6 _,
    List.forall_mem_singleton.mpr (spendingTx_returns _)⟩, fun _ => ⟨?_, by decide, by decide⟩, fun _ => ?_, by decide⟩
  · exact List.forall_mem_cons.mpr ⟨nofun, List.forall_mem_singleton.mpr (by decide)⟩
  · exact List.forall_mem_cons.mpr ⟨⟨[], rfl⟩, List.forall_mem_singleton.mpr ⟨[], rfl⟩⟩

/-- The second child becomes the top, its block is written over the records of the first one, and the spender
waits. -/
theorem spender_waits : ∃ start, (onlyGenesis start).Ready .dev checkedScripts (fun _ => False) ∧
    ∃ stores, Reaches start ⟨spenderWaits, stores, [genesisBlock, childBlock 1, childBlock 2]⟩ := by
  obtain ⟨start, ready⟩ := genesis_ready
  have begin : Reaches start (onlyGenesis start) := ⟨[], .nil⟩
  obtain ⟨first, reaches⟩ := withBlock_steps ready (withHeader_steps begin samples_accepted.1) (by decide) samples_wait.1
    (childBlock_lawful (List.forall_mem_singleton.mpr (by decide)) (List.forall_mem_singleton.mpr (Or.inl rfl)))
    childBlock_writable
  have other : ¬ BuiltOn (withHeader oneChild (childBlock 2)).chainman.chain.parentOf (childBlock 2).header.hash
      (childBlock 1).header.hash := not_builtOn (by decide) (by decide) (by decide)
  obtain ⟨second, reaches⟩ := withBlock_steps ready (withHeader_steps reaches samples_accepted.2.1) (by decide)
    samples_wait.2.1 (childBlock_lawful (List.forall_mem_cons.mpr ⟨by decide, List.forall_mem_singleton.mpr (by decide)⟩)
      (List.forall_mem_cons.mpr ⟨Or.inl rfl, List.forall_mem_singleton.mpr (Or.inr other)⟩)) childBlock_writable
  exact ⟨start, ready, second, withHeader_steps reaches samples_accepted.2.2⟩

theorem childBlock_onMain : spenderWaits.chainman.chain.OnMain (childBlock 2).header.hash := by
  have edge : spenderWaits.chainman.chain.parentOf spenderBlock.header.hash = some (childBlock 2).header.hash := by decide
  have top : spenderWaits.chainman.chain.topHeader.header.hash = spenderBlock.header.hash := by decide
  rw [Chain.OnMain, top]
  exact .of_parent edge

theorem childBlock_done : (childBlock 2).header.hash ∉ spenderWaits.queue.map (·.hash) := by
  rw [samples_wait.2.2]
  decide

theorem eq_childBlock {block : Block} (member : block ∈ [genesisBlock, childBlock 1, childBlock 2])
    (hash : block.header.hash = (childBlock 2).header.hash) : block = childBlock 2 := by
  simp only [List.mem_cons, List.not_mem_nil, or_false] at member
  rcases member with rfl | rfl | rfl
  · exact absurd hash (by decide)
  · exact absurd hash (by decide)
  · rfl

theorem serves_main_chain_spender : ∃ t u : Ledger, t.written = [genesisBlock, childBlock 1, childBlock 2] ∧
    dependencies (selfTxs spenderBlock) (lookupOutputs t.stores spenderBlock) 0 spenderBlock.spends = some [⟨50, [81]⟩] ∧
      Takes .dev checkedScripts t spenderBlock u ∧
        ∃ known, getBlock t.chainman.chain t.stores (childBlock 2).header.hash true =
          .ok ⟨known, (childBlock 2).txs.map Tx.withoutTxouts⟩ := by
  obtain ⟨start, ready, stores, events, run⟩ := spender_waits
  obtain ⟨takes, serves⟩ := serves_main_chain checkedScripts_keyed ready run
  have checks : Checks (fun _ => emptyHash) spenderBlock ⟨2, spenderBlock.header.hash, .append⟩ :=
    ⟨rfl, fun segwit => absurd segwit (by decide)⟩
  obtain ⟨⟨deps, found, pays, returns⟩, taken⟩ :=
    takes spenderBlock (surroundings none) _ _ samples_wait.2.2 checks (spenderBlock_lawful stores)
  obtain ⟨u, step⟩ := returns (spenderBlock_writable deps pays) rfl
  obtain ⟨block, member, hash, ⟨known, _, served⟩, _⟩ := serves _ childBlock_onMain childBlock_done id
  exact ⟨_, u, rfl, spenderBlock_pays pays ▸ found, taken u step, known.header, eq_childBlock member hash ▸ served⟩

end Ledger

end Bitlens

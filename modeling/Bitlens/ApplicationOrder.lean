import Bitlens.ChainGrowth

namespace Bitlens
open Lib

namespace Node

/-- The block is fetched, or it will be before the queue is worked on. -/
def Ahead (s : Node) (hash : Hash) : Prop :=
  s.chainman.chain.Fetched hash ∨ (∃ block entry, s.inHand = some (block, entry) ∧ entry.hash = hash) ∨ hash ∈ s.left

/-- The condition of a step. A header that becomes the top before the snapshot finds
every main-chain block fetched or with the chain watcher. The block that the chain
watcher takes is not on one that `sync_blocks` has yet to mark. The lookups for it succeed. -/
def Orderly (p : Profile) (s : Node) : NodeEvent → Prop
  | .newHeader => ∀ header rest new, s.receivedHeaders = header :: rest →
      s.chainman.chain.newHeader p header = .ok (some new) → s.chainman.chain.topHeader.totalWork ≤ new.totalWork →
        (p = .release → s.chainman.chain.Attached header) ∧ (s.startup.Early →
          ∀ hash, s.chainman.chain.OnMain hash → s.Ahead hash ∨ hash ∈ s.queue.map (·.hash))
  | .newBlock => ∀ block rest entry queue, s.receivedBlocks = block :: rest → s.queue = entry :: queue →
      block.header.hash = entry.hash → ∀ parent, s.chainman.chain.parentOf entry.hash = some parent → parent ∉ s.left
  | .applied env => ∀ block entry pending handles, s.inHand = some (block, entry) →
      pendingDeps (selfTxs block) block.spends [] = .ok (pending, handles) → ownedDeps env.lookup 0 handles ≠ none
  | _ => True

/-- The invariant. The parent of a listed block is fetched or listed before it, that of a
queued block is fetched, worked on, listed or queued before it, and from the snapshot on
no main-chain block is left out. -/
structure Inv (s : Node) : Prop where
  topped : s.chainman.chain.Topped
  closed : s.chainman.chain.AncestorClosed
  counted : s.startup ≠ .syncingHeaders → s.chainman.Counted
  early : s.startup.Early → s.left = []
  leftKnown : ∀ hash ∈ s.left, s.chainman.chain.Known hash
  leftOrder : ParentsFirst s.chainman.chain.parentOf s.chainman.chain.Fetched s.left
  held : ∀ block entry, s.inHand = some (block, entry) → block.header.hash = entry.hash ∧
    s.chainman.chain.Known entry.hash ∧
      ∀ parent, s.chainman.chain.parentOf entry.hash = some parent → s.chainman.chain.Fetched parent
  queueKnown : ∀ hash ∈ s.queue.map (·.hash), s.chainman.chain.Known hash
  queueOrder : s.watching = true → ParentsFirst s.chainman.chain.parentOf s.Ahead (s.queue.map (·.hash))
  covered : s.watching = true → ¬ s.startup.Early → ∀ hash, s.chainman.chain.OnMain hash →
    s.Ahead hash ∨ hash ∈ s.queue.map (·.hash)

/-- What a step does that neither takes the snapshot nor a block: it marks some blocks,
listed or worked on, and queues some new ones. -/
structure Progress (s t : Node) (marked : List Hash) (entries : List QueueEntry) : Prop where
  later : s.chainman.chain.Later t.chainman.chain marked
  topped : t.chainman.chain.Topped
  counted : t.startup ≠ .syncingHeaders → t.chainman.Counted
  known : ∀ hash ∈ marked, s.chainman.chain.Known hash
  first : ParentsFirst s.chainman.chain.parentOf s.chainman.chain.Fetched marked
  early : t.startup.Early ↔ s.startup.Early
  left : ∃ taken, s.left = taken ++ t.left ∧ ∀ hash ∈ taken, hash ∈ marked
  watching : t.watching = true → s.watching = true
  inHand : ∀ block entry, t.inHand = some (block, entry) → s.inHand = some (block, entry)
  worked : t.watching = true → ∀ block entry, s.inHand = some (block, entry) →
    t.inHand = some (block, entry) ∨ entry.hash ∈ marked
  queue : t.queue = s.queue ++ entries
  entriesKnown : ∀ hash ∈ entries.map (·.hash), t.chainman.chain.Known hash
  entriesOrder : t.watching = true → ParentsFirst t.chainman.chain.parentOf
    (fun hash => t.Ahead hash ∨ hash ∈ s.queue.map (·.hash)) (entries.map (·.hash))
  main : ¬ t.startup.Early → ∀ hash, t.chainman.chain.OnMain hash →
    s.chainman.chain.OnMain hash ∨ hash ∈ entries.map (·.hash)

variable {sha256 : Bytes → Hash} {scripts : Scripts} {s t : Node} {marked : List Hash} {entries : List QueueEntry}

theorem Progress.ahead (progress : s.Progress t marked entries) (watching : t.watching = true) {hash : Hash}
    (ahead : s.Ahead hash) : t.Ahead hash := by
  rcases ahead with fetched | ⟨block, entry, held, rfl⟩ | listed
  · exact Or.inl ((progress.later.fetched hash).mpr (Or.inl fetched))
  · rcases progress.worked watching block entry held with kept | marked
    · exact Or.inr (Or.inl ⟨block, entry, kept, rfl⟩)
    · exact Or.inl ((progress.later.fetched _).mpr (Or.inr marked))
  · obtain ⟨taken, split, marks⟩ := progress.left
    rw [split] at listed
    rcases List.mem_append.mp listed with early | late
    · exact Or.inl ((progress.later.fetched hash).mpr (Or.inr (marks hash early)))
    · exact Or.inr (Or.inr late)

/-- The step lemma. -/
theorem Progress.inv (progress : s.Progress t marked entries) (inv : s.Inv) : t.Inv := by
  obtain ⟨taken, split, marks⟩ := progress.left
  have listed : ∀ hash ∈ t.left, hash ∈ s.left := fun hash member => by
    rw [split]
    exact List.mem_append_right _ member
  have order := inv.leftOrder
  rw [split, parentsFirst_append] at order
  refine ⟨progress.topped, progress.later.closed progress.known progress.first inv.closed, progress.counted, fun before => ?_,
    fun hash member => progress.later.known hash (inv.leftKnown hash (listed hash member)), ?_, fun block entry held => ?_,
    fun hash member => ?_, fun on => ?_, fun on late hash onMain => ?_⟩
  · exact (List.append_eq_nil_iff.mp (split.symm.trans (inv.early (progress.early.mp before)))).2
  · refine progress.later.parentsFirst (fun hash member => inv.leftKnown hash (listed hash member)) order.2 fun hash base => ?_
    exact (progress.later.fetched hash).mpr (base.imp_right (marks hash))
  · obtain ⟨same, known, above⟩ := inv.held block entry (progress.inHand block entry held)
    refine ⟨same, progress.later.known _ known, fun parent edge => ?_⟩
    rw [progress.later.parentOf _ known] at edge
    exact (progress.later.fetched parent).mpr (Or.inl (above parent edge))
  · rw [progress.queue, List.map_append] at member
    rcases List.mem_append.mp member with old | new
    · exact progress.later.known hash (inv.queueKnown hash old)
    · exact progress.entriesKnown hash new
  · rw [progress.queue, List.map_append, parentsFirst_append]
    refine ⟨?_, progress.entriesOrder on⟩
    exact progress.later.parentsFirst inv.queueKnown (inv.queueOrder (progress.watching on)) fun hash => progress.ahead on
  · rw [progress.queue, List.map_append, List.mem_append]
    rcases progress.main late hash onMain with old | new
    · have covered := inv.covered (progress.watching on) (fun before => late (progress.early.mpr before)) hash old
      exact covered.imp (progress.ahead on) Or.inl
    · exact Or.inr (Or.inr new)

/-- Steps that leave the chain and the work of the chain watcher alone. -/
theorem Inv.frame (inv : s.Inv) (watcher : t.toWatcher = s.toWatcher) (inHand : t.inHand = s.inHand)
    (left : t.left = s.left) (watching : t.watching = true → s.watching = true)
    (syncing : t.startup ≠ .syncingHeaders → s.startup ≠ .syncingHeaders) (early : t.startup.Early ↔ s.startup.Early) :
    t.Inv := by
  have chainman : t.chainman = s.chainman := congrArg (·.chainman) watcher
  refine @Progress.inv s _ [] [] ⟨?_, ?_, fun other => ?_, fun _ member => ?_, trivial, early,
    ⟨[], left.symm, fun _ member => member⟩, watching, fun _ _ held => ?_, fun _ _ _ held => ?_, ?_, fun _ member => ?_,
    fun _ => trivial, fun _ hash onMain => ?_⟩ inv
  · rw [chainman]
    exact Chain.later_of_known rfl
  · rw [chainman]
    exact inv.topped
  · rw [chainman]
    exact inv.counted (syncing other)
  · cases member
  · rwa [inHand] at held
  · rw [inHand]
    exact Or.inl held
  · rw [List.append_nil]
    exact congrArg (·.queue) watcher
  · cases member
  · rw [chainman] at onMain
    exact Or.inl onMain

/-! What the steps mark and queue. -/

theorem page_inv {w : Chainman} {headers : List BlockHeaderOwned} {outcome : Outcome Unit} (inv : s.Inv)
    (during : s.startup = .syncingHeaders) (applied : s.chainman.validateAndApplyHeaders p headers = (w, outcome))
    (returns : outcome ≠ .fault) : Inv { s with chainman := w } := by
  obtain ⟨calls, run⟩ := validateAndApplyHeaders_run applied returns
  obtain ⟨topped, later⟩ := run.invariant
    (P := fun other => other.chain.Topped ∧ s.chainman.chain.Later other.chain [])
    ⟨inv.topped, Chain.later_of_known rfl⟩ fun _ _ _ kept step =>
      ⟨(step.topped kept.1).1, kept.2.trans (step.topped kept.1).2⟩
  refine @Progress.inv s _ [] [] ⟨later, topped, fun other => absurd during other,
    fun _ member => ?_, trivial, Iff.rfl, ⟨[], rfl, fun _ member => member⟩, id, fun _ _ held => held,
    fun _ _ _ held => Or.inl held, (List.append_nil _).symm, fun _ member => ?_, fun _ => trivial, fun late => ?_⟩ inv
  · cases member
  · cases member
  · exact absurd (show s.startup.Early by rw [during]; trivial) late

/-- The end of header sync counts the downloaded blocks and rebuilds the index. -/
theorem synced_spec {w w' : Chainman} (topped : w.chain.Topped) (synced : ChainEvent.synced.next p w = .ok w') :
    w'.chain.knownHeaders = w.chain.knownHeaders ∧ w'.chain.topHeader = w.chain.topHeader ∧ w'.Counted := by
  obtain ⟨count, counted, synced⟩ := Outcome.bind_eq_ok.mp synced
  obtain ⟨chain, built, synced⟩ := Outcome.bind_eq_ok.mp synced
  obtain ⟨indices, _, built⟩ := Outcome.bind_eq_ok.mp built
  cases built
  cases synced
  exact ⟨rfl, rfl, topped.counted counted⟩

theorem takeSnapshot_inv {w : Chainman} (inv : s.Inv) (before : s.startup.Early)
    (known : w.chain.knownHeaders = s.chainman.chain.knownHeaders) (top : w.chain.topHeader = s.chainman.chain.topHeader)
    (counted : w.Counted) (taken : s.takeSnapshot w = some t) : t.Inv := by
  have topped := inv.topped.congr known top
  have later := Chain.later_of_known known
  have closed := later.closed (fun _ member => absurd member List.not_mem_nil) trivial inv.closed
  unfold takeSnapshot at taken
  split at taken
  · next answer listed =>
    obtain ⟨leftKnown, order, covered⟩ := Chainman.listed_of_snapshot topped closed counted listed
    cases taken
    have ahead : ∀ hash, s.Ahead hash → Ahead { s with
        chainman := w
        startup := .frontpage answer.isSome
        left := (answer.map Prod.fst).getD [] } hash := by
      intro hash ahead
      rcases ahead with fetched | held | listed
      · exact Or.inl ((later.fetched hash).mpr (Or.inl fetched))
      · exact Or.inr (Or.inl held)
      · rw [inv.early before] at listed
        cases listed
    refine ⟨topped, closed, fun _ => counted, fun early => early.elim, leftKnown, order, fun block entry held => ?_,
      fun hash member => later.known hash (inv.queueKnown hash member), fun on => ?_, fun _ _ hash onMain => ?_⟩
    · obtain ⟨same, stored, above⟩ := inv.held block entry held
      refine ⟨same, later.known _ stored, fun parent edge => ?_⟩
      rw [later.parentOf _ stored] at edge
      exact (later.fetched parent).mpr (Or.inl (above parent edge))
    · exact later.parentsFirst inv.queueKnown (inv.queueOrder on) ahead
    · rcases covered hash onMain with fetched | listed
      · exact Or.inl (Or.inl fetched)
      · exact Or.inl (Or.inr (Or.inr listed))
  · cases taken

theorem flushed_inv {w : Chainman} {coinbaseAsciis : List Bytes} (inv : s.Inv)
    (inside : coinbaseAsciis.length ≤ s.left.length)
    (result : s.chainman.markAsDownloaded (s.left.zip coinbaseAsciis) = .ok w) :
    Inv { s with chainman := w, left := s.left.drop coinbaseAsciis.length } ∧
      ParentsFirst s.chainman.chain.parentOf s.chainman.chain.Fetched (s.left.take coinbaseAsciis.length) := by
  obtain ⟨topped, counted, top, later⟩ := Chainman.topped_of_markAsDownloaded inv.topped result
  have names : (s.left.zip coinbaseAsciis).map Prod.fst = s.left.take coinbaseAsciis.length := by
    rw [List.zip_eq_zip_take_min, Nat.min_eq_right inside, List.take_length]
    exact List.map_fst_zip (by rw [List.length_take]; omega)
  rw [names] at later
  have split := (List.take_append_drop coinbaseAsciis.length s.left).symm
  have order := inv.leftOrder
  rw [split, parentsFirst_append] at order
  refine ⟨@Progress.inv s _ _ [] ⟨later, topped, fun _ => counted, fun hash member => ?_, order.1, Iff.rfl,
    ⟨_, split, fun _ member => member⟩, id, fun _ _ held => held, fun _ _ _ held => Or.inl held,
    (List.append_nil _).symm, fun _ member => ?_, fun _ => trivial, fun _ hash onMain => ?_⟩ inv, order.1⟩
  · exact inv.leftKnown hash (List.mem_of_mem_take member)
  · cases member
  · exact Or.inl ((later.onMain inv.topped.rooted top).mp onMain)

theorem Ahead.mono {hash : Hash} (ahead : s.Ahead hash) (later : s.chainman.chain.Later t.chainman.chain [])
    (inHand : t.inHand = s.inHand) (left : t.left = s.left) : t.Ahead hash := by
  rw [Ahead, inHand, left]
  exact ahead.imp_left fun fetched => (later.fetched hash).mpr (Or.inl fetched)

/-- A new top: the last common ancestor is a main-chain block, and so it is fetched or
someone works on it. -/
theorem newTop_inv {new : BlockHeaderWithNumber} {m : Hash} {w : Watcher} {header : BlockHeaderOwned} {rest : List BlockHeaderOwned}
    (inv : s.Inv) (accepted : s.chainman.chain.newHeader p header = .ok (some new))
    (top : NewTop s.toWatcher w new entries m) (watching : s.watching = true)
    (covered : ∀ hash, s.chainman.chain.OnMain hash → s.Ahead hash ∨ hash ∈ s.queue.map (·.hash)) :
    Inv { s with toWatcher := w, receivedHeaders := rest } := by
  have rooted := inv.topped.rooted
  obtain ⟨grows, _⟩ := Chainman.extends_of_newHeader accepted
  have learned := Chainman.later_learn accepted
  have later := learned.congr top.known
  have newTopped := Chain.Topped.of_setTop rooted accepted
  have topped : w.chainman.chain.Topped := newTopped.congr top.known top.top
  have parents : w.chainman.chain.parentOf = (s.chainman.learn new).chain.parentOf := by
    funext hash
    simp only [Chain.parentOf, top.known]
  have known : ∀ hash, hash ∈ entries.map (·.hash) → w.chainman.chain.Known hash := by
    intro hash member
    have path := ((top.blocks hash).mp member).1
    rw [← parents, ← top.top] at path
    exact (topped.rooted.graded.descends topped.rooted.known_top path).1
  have onMain : s.chainman.chain.OnMain m := (learned.descends rooted rooted.known_top).mp top.common.left
  refine @Progress.inv s _ [] entries ⟨later, topped, fun other => ?_, fun _ member => ?_, trivial,
    Iff.rfl, ⟨[], rfl, fun _ member => member⟩, fun _ => watching, fun _ _ held => held, fun _ _ _ held => Or.inl held,
    top.queue, known, fun _ => ?_, fun _ hash member => ?_⟩ inv
  · rcases top.counted with ⟨same, level⟩ | counted
    · have before := (inv.counted other).1
      refine ⟨?_, fun more => ?_⟩
      · rw [same, top.top]
        omega
      · rw [same, top.top] at more
        omega
    · have bound := newTopped.counted counted
      rw [show ((s.chainman.learn new).setTop new).chain.topHeader = new from rfl] at bound
      rw [Chainman.Counted, top.top, later.fetched, ← learned.fetched]
      exact bound
  · cases member
  · rw [parents]
    refine top.order.mono fun hash same => ?_
    rw [same]
    exact (covered m onMain).imp_left fun ahead => ahead.mono later rfl rfl
  · have path : Descends (s.chainman.learn new).chain.parentOf new.header.hash hash := by
      rwa [Chain.OnMain, parents, top.top] at member
    rcases top.common.right.comparable path with below | above
    · exact Or.inl (onMain.trans ((learned.descends rooted (rooted.graded.descends rooted.known_top onMain).1).mp below))
    · by_cases same : hash = m
      · rw [same]
        exact Or.inl onMain
      · exact Or.inr ((top.blocks hash).mpr ⟨path, above, same⟩)

theorem newHeader_inv {header : BlockHeaderOwned} {rest : List BlockHeaderOwned} {w : Watcher} (inv : s.Inv)
    (orderly : s.Orderly p .newHeader) (watching : s.watching = true) (received : s.receivedHeaders = header :: rest)
    (handled : handleNewHeader p header s.toWatcher = (w, .ok ())) :
    Inv { s with toWatcher := w, receivedHeaders := rest } := by
  have rooted := inv.topped.rooted
  rcases handleNewHeader_spec rooted (fun new accepted heavy => (orderly header rest new received accepted heavy).1) handled
    with same | ⟨new, accepted, same | ⟨heavy, entries, m, top⟩⟩
  · exact inv.frame same rfl rfl id id Iff.rfl
  · have learned := Chainman.later_learn accepted
    rw [same]
    refine @Progress.inv s _ [] [] ⟨learned, inv.topped.learn accepted, fun other => ?_,
      fun _ member => ?_, trivial, Iff.rfl, ⟨[], rfl, fun _ member => member⟩, id, fun _ _ held => held,
      fun _ _ _ held => Or.inl held, (List.append_nil _).symm, fun _ member => ?_, fun _ => trivial, fun _ hash onMain => ?_⟩ inv
    · obtain ⟨bound, full⟩ := inv.counted other
      exact ⟨bound, fun more => (learned.fetched _).mpr (Or.inl (full more))⟩
    · cases member
    · cases member
    · exact Or.inl ((learned.onMain rooted rfl).mp onMain)
  · refine newTop_inv inv accepted top watching fun hash onMain => ?_
    by_cases early : s.startup.Early
    · exact (orderly header rest new received accepted heavy).2 early hash onMain
    · exact inv.covered watching early hash onMain

theorem newBlock_inv {block : Block} {rest : List Block} {entry : QueueEntry} {queue : List QueueEntry} (inv : s.Inv)
    (orderly : s.Orderly p .newBlock) (watching : s.watching = true) (idle : s.inHand = none)
    (received : s.receivedBlocks = block :: rest) (waiting : s.queue = entry :: queue)
    (fits : block.header.hash = entry.hash) :
    Inv { s with queue := queue, inHand := some (block, entry), receivedBlocks := rest } := by
  have order := inv.queueOrder watching
  have known := inv.queueKnown
  rw [waiting, List.map_cons] at order known
  have ahead : ∀ hash, s.Ahead hash ∨ hash = entry.hash →
      Ahead { s with queue := queue, inHand := some (block, entry), receivedBlocks := rest } hash := by
    rintro hash ((fetched | ⟨_, _, held, _⟩ | listed) | same)
    · exact Or.inl fetched
    · rw [idle] at held
      cases held
    · exact Or.inr (Or.inr listed)
    · exact Or.inr (Or.inl ⟨block, entry, rfl, same.symm⟩)
  refine ⟨inv.topped, inv.closed, inv.counted, inv.early, inv.leftKnown, inv.leftOrder, fun b e held => ?_,
    fun hash member => known hash (List.mem_cons_of_mem _ member), fun _ => order.2.mono ahead, fun _ late hash onMain => ?_⟩
  · cases held
    refine ⟨fits, known _ List.mem_cons_self, fun parent edge => ?_⟩
    rcases order.1 parent edge with fetched | ⟨_, _, held, _⟩ | listed
    · exact fetched
    · rw [idle] at held
      cases held
    · exact absurd listed (orderly block rest entry queue received waiting fits parent edge)
  · have covered := inv.covered watching late hash onMain
    rw [waiting, List.map_cons] at covered
    rcases covered with before | member
    · exact Or.inl (ahead hash (Or.inl before))
    · rcases List.mem_cons.mp member with same | later
      · exact Or.inl (ahead hash (Or.inr same))
      · exact Or.inr later

/-- The chain watcher panics when a lookup fails, and otherwise it marks the block. -/
theorem applied_inv {env : Surroundings} {block : Block} {entry : QueueEntry} {w : Chainman} {done : List KeepupEffect}
    {outcome : Outcome Unit} {watching : Bool} (inv : s.Inv) (orderly : s.Orderly p (.applied env))
    (held : s.inHand = some (block, entry)) (result : applyBlock p scripts env block entry.strategy s.chainman = (w, done, outcome))
    (alive : watching = true → s.watching = true ∧ outcome = .ok ()) :
    Inv { s with chainman := w, inHand := none, watching := watching } ∧
      ParentsFirst s.chainman.chain.parentOf s.chainman.chain.Fetched (done.filterMap KeepupEffect.markedBlock) := by
  obtain ⟨same, known, above⟩ := inv.held block entry held
  rw [← same] at known above
  rcases applyBlock_cases inv.topped known result with ⟨unchanged, nothing, failed⟩ | ⟨_, coinbaseAscii, _, _, marked, effects⟩
  · rw [unchanged, nothing]
    refine ⟨@Progress.inv s _ [] [] ⟨Chain.later_of_known rfl, inv.topped, inv.counted,
      fun _ member => ?_, trivial, Iff.rfl, ⟨[], rfl, fun _ member => member⟩, fun on => (alive on).1, fun _ _ other => ?_,
      fun on _ _ _ => ?_, (List.append_nil _).symm, fun _ member => ?_, fun _ => trivial, fun _ _ => Or.inl⟩ inv, trivial⟩
    · cases member
    · cases other
    · obtain ⟨pending, handles, spawned, missing⟩ := failed (alive on).2
      exact absurd missing (orderly block entry pending handles held spawned)
    · cases member
  · obtain ⟨topped, counted, top, later⟩ := Chainman.topped_of_markAsDownloaded inv.topped marked
    have first : ParentsFirst s.chainman.chain.parentOf s.chainman.chain.Fetched [block.header.hash] := ⟨above, trivial⟩
    rw [effects]
    refine ⟨@Progress.inv s _ [block.header.hash] [] ⟨later, topped, fun _ => counted,
      fun hash member => ?_, first, Iff.rfl, ⟨[], rfl, fun _ member => absurd member List.not_mem_nil⟩,
      fun on => (alive on).1, fun _ _ other => ?_, fun _ b e other => ?_, (List.append_nil _).symm, fun _ member => ?_,
      fun _ => trivial, fun _ hash onMain => ?_⟩ inv, first⟩
    · rwa [List.mem_singleton.mp member]
    · cases other
    · rw [held] at other
      cases other
      rw [same]
      exact Or.inr List.mem_cons_self
    · cases member
    · exact Or.inl ((later.onMain inv.topped.rooted top).mp onMain)

/-- The step lemma: an orderly step keeps the invariant and marks blocks after their
parents. -/
theorem Inv.step {event : NodeEvent} (inv : s.Inv) (orderly : s.Orderly p event)
    (step : s.Step p sha256 scripts event t) :
    t.Inv ∧ ParentsFirst s.chainman.chain.parentOf s.chainman.chain.Fetched (s.marks p scripts event) := by
  cases step.move with
  | quiet watcher inHand left watching syncing early silent =>
    rw [silent]
    exact ⟨inv.frame watcher inHand left watching syncing early, trivial⟩
  | page during applied returns => exact ⟨page_inv inv during applied returns, trivial⟩
  | deciding before taken =>
    have counted := inv.counted (by rw [before]; exact Startup.noConfusion)
    exact ⟨takeSnapshot_inv inv (by rw [before]; trivial) rfl rfl counted taken, trivial⟩
  | synced before synced taken =>
    obtain ⟨known, top, counted⟩ := synced_spec inv.topped synced
    exact ⟨takeSnapshot_inv inv (by rw [before]; trivial) known top counted taken, trivial⟩
  | flushed during inside result => exact flushed_inv inv inside result
  | header watching idle received handled => exact ⟨newHeader_inv inv orderly watching received handled, trivial⟩
  | taken watching idle received waiting fits => exact ⟨newBlock_inv inv orderly watching idle received waiting fits, trivial⟩
  | applied held result alive =>
    rw [marks_of_inHand held, result]
    exact applied_inv inv orderly held result alive

end Node

/-! The start of the program. -/

/-- What a new process has loaded: rows that a crash left of an earlier run, with any flags. -/
def Loads (p : Profile) (w : Chainman) : Prop :=
  ∃ events s rows ordered, Run (LifeStep p) HeaderStore.start events s ∧ Distinct (headersOf events) ∧
    Survives s.rows rows ∧ Selects rows ordered ∧ loadHeadersFromSqlite ordered = .ok w

theorem FullScan.topped {headers : List BlockHeaderOwned} {ordered : List HeaderRow} {reported : List BlockHeaderWithNumber}
    (scan : FullScan headers ordered reported) (distinct : Distinct headers) : (loaded reported).Topped := by
  rcases (addLoaded_top reported Chain.default).2.2 with kept | inReported
  · have same : (loaded reported).topHeader = genesis := kept
    refine ⟨scan.rooted distinct, Or.inl (by rw [same]; rfl), fun flag => ?_⟩
    rw [same] at flag
    cases flag
  · have atTop := scan.known inReported
    exact ⟨scan.rooted distinct, Or.inr ((scan.traced distinct).wellFormed distinct ⟨_, atTop, rfl, rfl⟩),
      fun flag => ⟨_, atTop, flag⟩⟩

theorem Loads.spec {w : Chainman} (loads : Loads p w) : w.chain.Topped ∧ w.chain.AncestorClosed ∧ w.Counted := by
  obtain ⟨events, s, rows, ordered, run, distinct, survives, selects, result⟩ := loads
  obtain ⟨reported, scan, known, top⟩ := fullScan_of_load run distinct survives selects result
  have topped := (scan.topped distinct).congr known top
  have later := Chain.later_of_known known
  refine ⟨topped, ?_, ?_⟩
  · refine later.closed (fun _ member => absurd member List.not_mem_nil) trivial fun x y edge fetched => ?_
    exact scan.fetched_closed distinct fetched (.of_parent edge)
  · obtain ⟨_, _, result⟩ := Outcome.bind_eq_ok.mp result
    obtain ⟨_, _, result⟩ := Outcome.bind_eq_ok.mp result
    obtain ⟨count, counted, result⟩ := Outcome.bind_eq_ok.mp result
    cases result
    exact topped.counted counted

namespace Node

theorem start_inv {w : Chainman} (loads : Loads p w) : (start w).Inv := by
  obtain ⟨topped, closed, counted⟩ := loads.spec
  refine ⟨topped, closed, fun _ => counted, fun _ => rfl, fun _ member => ?_, trivial, fun _ _ held => ?_,
    fun _ member => ?_, fun _ => trivial, fun _ late => absurd trivial late⟩
  · cases member
  · cases held
  · cases member

/-- The calls of `mark_as_downloaded` in a step take each block after its parent. -/
def MarksInOrder (p : Profile) (scripts : Scripts) (s : Node) (event : NodeEvent) : Prop :=
  ParentsFirst s.chainman.chain.parentOf s.chainman.chain.Fetched (s.marks p scripts event)

/-- In an orderly run of the program blocks are marked after their parents, and the
fetched blocks are closed under ancestors. -/
theorem ancestorClosed_of_run {w : Chainman} {events : List NodeEvent} (loads : Loads p w)
    (run : Run (Guarded (Orderly p) (Step p sha256 scripts)) (start w) events s) :
    s.chainman.chain.AncestorClosed ∧
      ∀ event t, s.Orderly p event → s.Step p sha256 scripts event t → s.MarksInOrder p scripts event := by
  have inv : s.Inv := run.invariant (P := Inv) (start_inv loads) fun _ _ _ kept step => (kept.step step.1 step.2).1
  exact ⟨inv.closed, fun event t orderly step => (inv.step orderly step).2⟩

/-! A restart with one block to download, and a peer's block on that one. -/

def recentHeader : BlockHeaderOwned := { HeaderStore.firstHeader with timestamp := 1700000000 }

def recentEvents : List HeaderEvent :=
  [.flush, .mark [(genesisHeader.hash, [4])], .header recentHeader false, .deliver 0, .flush]

def recentStore : HeaderStore := HeaderStore.after .dev HeaderStore.start recentEvents

def recentChainman : Chainman :=
  match loadHeadersFromSqlite recentStore.rows with
  | .ok w => w
  | _ => startChainman

theorem recentChainman_loads : Loads .dev recentChainman := by
  have happens : ∀ (s : HeaderStore) (event : HeaderEvent), (s.next .dev event).isSome = true →
      LifeStep .dev s (.running event) (HeaderStore.after .dev s [event]) :=
    fun s event happens => HeaderStore.step_of_isSome happens
  have run : Run (LifeStep .dev) HeaderStore.start (recentEvents.map .running) recentStore :=
    .cons (happens _ _ (by decide)) (.cons (happens _ _ (by decide)) (.cons (happens _ _ (by decide))
      (.cons (happens _ _ (by decide)) (.single (happens _ _ (by decide))))))
  exact ⟨_, _, recentStore.rows, recentStore.rows, run, ⟨by decide, by decide⟩, ⟨by decide, by decide⟩,
    ⟨.refl _, by decide⟩, rfl⟩

def peerBlock : Block where
  header := { sampleHeader 3 2 with timestamp := 1700000600 }
  txs := [⟨1, 0, [⟨emptyHash, 0xFFFFFFFF, 0, []⟩], [⟨50, []⟩], none, ByteArr.fill 32 1, emptyHash⟩]

def nextQuiet : Node → NodeEvent → Option Node := next .dev (fun _ => emptyHash) quietScripts

/-- The block comes after the missing one has been marked. -/
def patientEvents : List NodeEvent :=
  [.snapshot, .frontpageGenerated, .stopSyncingHeaders, .flushed [[5]], .syncedBlocks, .receives (.block peerBlock),
    .checks 0, .sends 0]

theorem nextQuiet_agrees (s : Node) (event : NodeEvent) (t : Node) (taken : nextQuiet s event = some t) :
    Step .dev (fun _ => emptyHash) quietScripts s event t := taken

theorem ancestorClosed_of_run_patient :
    (after nextQuiet (start recentChainman) (patientEvents ++ [NodeEvent.newHeader] ++ [NodeEvent.sends 0] ++
      [NodeEvent.newBlock] ++ [NodeEvent.applied (surroundings none)])).chainman.chain.AncestorClosed := by
  have run : Run (Step .dev (fun _ => emptyHash) quietScripts) (start recentChainman) patientEvents
      (after nextQuiet (start recentChainman) patientEvents) := .of_after nextQuiet_agrees (by decide)
  have quiet : ∀ event ∈ patientEvents, ∀ s, Orderly .dev s event := by
    simp only [patientEvents, List.forall_mem_cons, Orderly, implies_true, List.not_mem_nil, IsEmpty.forall_iff, and_self]
  have early := run.guarded_of_labels quiet
  have synced : (after nextQuiet (start recentChainman) patientEvents).startup = .done := by decide
  have free : Orderly .dev (after nextQuiet (start recentChainman) patientEvents) .newHeader := by
    intro header rest new _ _ _
    refine ⟨nofun, ?_⟩
    rw [synced]
    exact False.elim
  have queued := early.guarded_snoc nextQuiet_agrees .newHeader free (by decide)
  have sent := queued.guarded_snoc nextQuiet_agrees (.sends 0) trivial (by decide)
  have listed : (after nextQuiet (start recentChainman)
      (patientEvents ++ [NodeEvent.newHeader] ++ [NodeEvent.sends 0])).left = [] := by decide
  have alone : Orderly .dev (after nextQuiet (start recentChainman)
      (patientEvents ++ [NodeEvent.newHeader] ++ [NodeEvent.sends 0])) .newBlock := by
    intro block rest entry queue _ _ _ parent _
    rw [listed]
    exact List.not_mem_nil
  have taken := sent.guarded_snoc nextQuiet_agrees .newBlock alone (by decide)
  have worked : (after nextQuiet (start recentChainman) (patientEvents ++ [NodeEvent.newHeader] ++ [NodeEvent.sends 0] ++
      [NodeEvent.newBlock])).inHand.map (fun held => held.1.spends) = some [] := by decide
  have found : Orderly .dev (after nextQuiet (start recentChainman)
      (patientEvents ++ [NodeEvent.newHeader] ++ [NodeEvent.sends 0] ++ [NodeEvent.newBlock])) (.applied (surroundings none)) := by
    intro block entry pending handles held spawned
    rw [held] at worked
    have spends : block.spends = [] := Option.some.inj worked
    rw [spends] at spawned
    cases spawned
    exact Option.some_ne_none _
  have applied := taken.guarded_snoc nextQuiet_agrees (.applied (surroundings none)) found (by decide)
  exact (ancestorClosed_of_run recentChainman_loads applied).1

/-- Behind the snapshot no flag is set, and the chain watcher applies the block at once. -/
def windowEvents : List NodeEvent :=
  [.snapshot, .receives (.block peerBlock), .checks 0, .sends 0, .newHeader, .sends 0, .newBlock, .applied (surroundings none)]

theorem ancestorClosed_of_run_fails :
    ¬ ∀ (p : Profile) (sha256 : Bytes → Hash) (scripts : Scripts) (w : Chainman) (events : List NodeEvent) (s : Node),
      Loads p w → Run (Step p sha256 scripts) (start w) events s →
        s.chainman.chain.AncestorClosed ∧ ∀ event t, s.Step p sha256 scripts event t → s.MarksInOrder p scripts event := by
  intro claim
  have run : Run (Step .dev (fun _ => emptyHash) quietScripts) (start recentChainman) windowEvents
      (after nextQuiet (start recentChainman) windowEvents) := .of_after nextQuiet_agrees (by decide)
  have closed := (claim _ _ _ _ _ _ recentChainman_loads run).1
  have edge : (after nextQuiet (start recentChainman) windowEvents).chainman.chain.parentOf peerBlock.header.hash =
      some recentHeader.hash := by decide
  have flags : ((after nextQuiet (start recentChainman) windowEvents).chainman.chain.knownHeaders peerBlock.header.hash).map
      (·.fetchedFull) = some true := by decide
  obtain ⟨b, stored, flag⟩ := closed _ _ edge (Option.map_eq_some_iff.mp flags)
  have missing : ((after nextQuiet (start recentChainman) windowEvents).chainman.chain.knownHeaders recentHeader.hash).map
      (·.fetchedFull) = some false := by decide
  rw [stored, Option.map_some, flag] at missing
  cases missing

end Node

end Bitlens

import Bitlens.ForkComputation
import Bitlens.CrashRecovery

namespace Bitlens
open Lib

/-- The states of the chain watcher: a new process, or one that has loaded what a crash
left of an earlier run, and from there header sync, the rebuilding of the index, new
headers and applied blocks, which leave the front of the queue. -/
inductive Reachable (p : Profile) : Watcher → Prop
  | start : Reachable p ⟨startChainman, []⟩
  | loaded {events : List LifeEvent} {s : HeaderStore} {rows ordered : List HeaderRow} {w : Chainman} :
      Run (LifeStep p) HeaderStore.start events s → Distinct (headersOf events) → Survives s.rows rows →
        Selects rows ordered → loadHeadersFromSqlite ordered = .ok w → Reachable p ⟨w, []⟩
  | sync {s : Watcher} {header : BlockHeaderOwned} {w : Chainman} : Reachable p s →
      HeaderCall p s.chainman (header, true) w → Reachable p ⟨w, s.queue⟩
  | rebuilt {s : Watcher} {c : Chain} : Reachable p s → s.chainman.chain.generateTopWorkChainHashset = .ok c →
      Reachable p ⟨{ s.chainman with chain := c }, s.queue⟩
  | received {s t : Watcher} {header : BlockHeaderOwned} : Reachable p s → handleNewHeader p header s = (t, .ok ()) →
      Reachable p t
  | applied {s : Watcher} {blocks : List (Hash × Bytes)} {w : Chainman} {front queue : List QueueEntry} :
      Reachable p s → s.queue = front ++ queue → s.chainman.markAsDownloaded blocks = .ok w → Reachable p ⟨w, queue⟩

/-- The entries that a new top appends: the blocks of the new main chain above the last
common ancestor, parent before child, at their heights; the first one regenerates when
a block has left the main chain, the others append. -/
structure QueueGrowth (before after : Watcher) (entries : List QueueEntry) (m : Hash) : Prop where
  queue : after.queue = before.queue ++ entries
  common : LastCommon after.chainman.chain.parentOf before.chainman.chain.topHeader.header.hash
    after.chainman.chain.topHeader.header.hash m
  blocks : ∀ hash, hash ∈ entries.map (·.hash) ↔
    Above after.chainman.chain.parentOf after.chainman.chain.topHeader.header.hash m hash
  nodup : (entries.map (·.hash)).Nodup
  order : ParentsFirst after.chainman.chain.parentOf (· = m) (entries.map (·.hash))
  numbers : ∀ e ∈ entries, e.number = after.chainman.chain.heightOf e.hash
  first : (∃ hash, Above after.chainman.chain.parentOf before.chainman.chain.topHeader.header.hash m hash) →
    ∃ e rest, entries = e :: rest ∧ e.strategy = .regenerateFromScratch
  others : ∀ e ∈ entries.tail, e.strategy = .append

def QueueGrown (s : Watcher) (header : BlockHeaderOwned) : Prop :=
  let call := handleNewHeader .dev header s
  call.2 = .ok () ∧ ∃ entries m, QueueGrowth s call.1 entries m

variable {p : Profile} {s t : Watcher} {header : BlockHeaderOwned}

namespace Chainman

variable {w w' : Chainman}

theorem markAll_topHeader {blocks : List (Hash × Bytes)} (result : w.markAll blocks = some w') :
    w'.chain.topHeader = w.chain.topHeader := by
  induction blocks generalizing w with
  | nil =>
    cases result
    rfl
  | cons block blocks ih =>
    obtain ⟨middle, first, rest⟩ := Option.bind_eq_some_iff.mp result
    obtain ⟨h, _, same⟩ := Option.map_eq_some_iff.mp first
    rw [ih rest, ← same]

theorem markAsDownloaded_rooted {blocks : List (Hash × Bytes)} (result : w.markAsDownloaded blocks = .ok w')
    (rooted : w.chain.Rooted) : w'.chain.Rooted := by
  have marks := marks_of_markAsDownloaded result
  obtain ⟨marked, all, result⟩ := Outcome.bind_eq_ok.mp result
  obtain ⟨top, _, result⟩ := Outcome.bind_eq_ok.mp result
  obtain ⟨count, _, result⟩ := Outcome.bind_eq_ok.mp result
  have sameTop := markAll_topHeader (Outcome.unwrap_eq_ok.mp all)
  cases result
  refine ⟨fun hash b stored => ?_, fun hash b stored positive => ?_, fun hash b stored zero => ?_, ?_⟩
  · obtain ⟨old, before, same, _⟩ := marks.of_known stored
    rw [same]
    exact rooted.keyed hash old before
  · obtain ⟨old, before, same, number, _⟩ := marks.of_known stored
    rw [number] at positive ⊢
    obtain ⟨q, above, step⟩ := rooted.parents hash old before positive
    obtain ⟨q', after, _, level, _⟩ := marks.keeps _ q above
    rw [same]
    exact ⟨q', after, by rw [step, level]⟩
  · obtain ⟨old, before, _, number, _⟩ := marks.of_known stored
    exact rooted.root hash old before (number.symm.trans zero)
  · obtain ⟨stored, atTop, number⟩ := rooted.top
    obtain ⟨b, after, _, level, _⟩ := marks.keeps _ stored atTop
    have header : (marked.setTop { marked.chain.topHeader with fetchedFull := top.fetchedFull }).chain.topHeader.header =
        w.chain.topHeader.header := congrArg (·.header) sameTop
    have height : (marked.setTop { marked.chain.topHeader with fetchedFull := top.fetchedFull }).chain.topHeader.number =
        w.chain.topHeader.number := congrArg (·.number) sameTop
    dsimp only
    rw [header, height]
    exact ⟨b, after, level.trans number⟩

end Chainman

/-- A call of `handle_new_header` that returns has refused the header at once, or leaves
the chain of the inner call, with the index updated for a new top. -/
theorem handleNewHeader_cases (result : handleNewHeader p header s = (t, .ok ())) :
    t.chainman = s.chainman ∨ ∃ w outcome, s.chainman.validateAndApplyHeaderInner p header false = (w, outcome) ∧
      outcome ≠ .fault ∧ (t.chainman = w ∨ ∃ applied, outcome = .ok (some applied) ∧
        t.chainman = { w with chain := w.chain.updateMostWorkChain applied }) := by
  unfold handleNewHeader at result
  split at result
  · cases result
    exact Or.inl rfl
  split at result
  · cases result
    exact Or.inl rfl
  split at result
  · next w value applied =>
    refine Or.inr ⟨w, _, applied, by simp, Or.inr ⟨value, rfl, ?_⟩⟩
    dsimp only at result
    split at result
    · cases result
      rfl
    · cases result
  · cases result
  · next w outcome _ noFault applied =>
    cases result
    exact Or.inr ⟨w, outcome, applied, noFault, Or.inl rfl⟩

theorem handleNewHeader_call (result : handleNewHeader p header s = (t, .ok ())) :
    t.chainman = s.chainman ∨ ∃ w, HeaderCall p s.chainman (header, false) w ∧
      t.chainman.chain.knownHeaders = w.chain.knownHeaders ∧ t.chainman.chain.topHeader = w.chain.topHeader := by
  rcases handleNewHeader_cases result with same | ⟨w, outcome, applied, noFault, same | ⟨value, _, same⟩⟩
  · exact Or.inl same
  · refine Or.inr ⟨w, ⟨outcome, applied, noFault⟩, ?_⟩
    rw [same]
    exact ⟨rfl, rfl⟩
  · refine Or.inr ⟨w, ⟨outcome, applied, noFault⟩, ?_⟩
    rw [same]
    exact ⟨rfl, rfl⟩

/-- The step lemmas of the watcher's chain, put together. -/
theorem Reachable.rooted (reachable : Reachable p s) : s.chainman.chain.Rooted := by
  induction reachable with
  | start => exact Chain.default_grown.rooted
  | loaded run distinct survives selects result => exact rooted_of_load run distinct survives selects result
  | sync _ call ih => exact call.rooted ih
  | rebuilt _ built ih =>
    obtain ⟨indices, _, result⟩ := Outcome.bind_eq_ok.mp built
    cases result
    exact ih.congr rfl rfl rfl
  | received _ result ih =>
    rcases handleNewHeader_call result with same | ⟨w, call, known, top⟩
    · rw [same]
      exact ih
    · exact (call.rooted ih).congr known (congrArg (·.header) top) (congrArg (·.number) top)
  | applied _ _ result ih => exact Chainman.markAsDownloaded_rooted result ih

/-! The entries of a fork. -/

theorem forkEntries_hashes {first i : Nat} {blocks : List (Hash × Nat)} {entries : List QueueEntry}
    (result : forkEntries p first i blocks = .ok entries) : entries.map (·.hash) = blocks.map Prod.fst := by
  induction blocks generalizing i entries with
  | nil =>
    cases result
    rfl
  | cons block blocks ih =>
    obtain ⟨number, _, result⟩ := Outcome.bind_eq_ok.mp result
    obtain ⟨rest, atRest, shape⟩ := Outcome.bind_eq_ok.mp result
    cases shape
    rw [List.map_cons, List.map_cons, ih atRest]

/-- The entry of the last block is numbered from the first number. -/
theorem forkEntries_last {first i number : Nat} {hash : Hash} {blocks : List (Hash × Nat)} {entries : List QueueEntry}
    (result : forkEntries .dev first i (blocks ++ [(hash, number)]) = .ok entries) :
    ∃ e ∈ entries, e.hash = hash ∧ e.number = first + i + blocks.length := by
  induction blocks generalizing i entries with
  | nil =>
    obtain ⟨own, added, result⟩ := Outcome.bind_eq_ok.mp result
    obtain ⟨rest, _, shape⟩ := Outcome.bind_eq_ok.mp result
    cases shape
    exact ⟨_, List.mem_cons_self, rfl, (Profile.dev_add_eq_ok.mp added).2⟩
  | cons block blocks ih =>
    obtain ⟨own, _, result⟩ := Outcome.bind_eq_ok.mp result
    obtain ⟨rest, atRest, shape⟩ := Outcome.bind_eq_ok.mp result
    cases shape
    obtain ⟨e, member, name, level⟩ := ih atRest
    refine ⟨e, List.mem_cons_of_mem _ member, name, ?_⟩
    rw [level, List.length_cons]
    omega

/-- The entries of a fork are numbered two below the heights. -/
theorem entriesFor_last {top number : Nat} {hash name : Hash} {blocks : List (Hash × Nat)} {entries : List QueueEntry}
    (several : blocks ≠ []) (result : entriesFor .dev top name (blocks ++ [(hash, number)]) = .ok entries) :
    ∃ e ∈ entries, e.hash = hash ∧ e.number + 2 = top := by
  have length : (blocks ++ [(hash, number)]).length = blocks.length + 1 := by
    rw [List.length_append, List.length_singleton]
  have positive := List.length_pos_iff.mpr several
  rw [entriesFor, length, if_neg (by omega)] at result
  obtain ⟨above, first, result⟩ := Outcome.bind_eq_ok.mp result
  obtain ⟨lowest, second, result⟩ := Outcome.bind_eq_ok.mp result
  obtain ⟨fits, difference⟩ := Profile.dev_sub_eq_ok.mp first
  obtain ⟨fits', difference'⟩ := Profile.dev_sub_eq_ok.mp second
  obtain ⟨e, member, same, level⟩ := forkEntries_last result
  exact ⟨e, member, same, by omega⟩

/-! A header that becomes the top. -/

variable {w : Chainman} {q : BlockHeaderWithNumber} {result : HeaderApplicationResult}

theorem handleNewHeader_of_applied (unknown : s.chainman.chain.knownHeaders header.hash = none)
    (atParent : s.chainman.chain.knownHeaders header.parent = some q)
    (applied : s.chainman.validateAndApplyHeaderInner p header false = (w, .ok (some result))) :
    handleNewHeader p header s = match entriesFor p w.chain.topHeader.number header.hash result.addedBlocks with
      | .ok entries => (⟨{ w with chain := w.chain.updateMostWorkChain result }, s.queue ++ entries⟩, .ok ())
      | _ => (⟨{ w with chain := w.chain.updateMostWorkChain result }, s.queue⟩, .fault) := by
  rw [handleNewHeader, unknown, atParent, if_neg (by simp), if_neg (by simp), applied]
  rfl

/-- The top changes only by the inner call. -/
theorem handleNewHeader_topHeader :
    (handleNewHeader p header s).1.chainman.chain.topHeader = s.chainman.chain.topHeader ∨
      (handleNewHeader p header s).1.chainman.chain.topHeader =
        (s.chainman.validateAndApplyHeaderInner p header false).1.chain.topHeader := by
  unfold handleNewHeader
  split
  · exact Or.inl rfl
  split
  · exact Or.inl rfl
  cases s.chainman.validateAndApplyHeaderInner p header false with
  | mk w outcome =>
    right
    cases outcome with
    | ok found =>
      cases found with
      | none => rfl
      | some result =>
        dsimp only
        split
        · rfl
        · rfl
    | err => rfl
    | fault => rfl

/-- A header that becomes the top is accepted with enough work, on the old top or on a
header that is not above it. -/
theorem accepted_of_newTop (rooted : s.chainman.chain.Rooted)
    (makesTop : (handleNewHeader .dev header s).1.chainman.chain.topHeader ≠ s.chainman.chain.topHeader) :
    ∃ new q, s.chainman.chain.newHeader .dev header = .ok (some new) ∧ new.header = header ∧
      s.chainman.chain.topHeader.totalWork ≤ new.totalWork ∧ s.chainman.chain.knownHeaders header.parent = some q ∧
        new.number = q.number + 1 ∧
          (header.parent = s.chainman.chain.topHeader.header.hash ∨ q.number ≤ s.chainman.chain.topHeader.number) := by
  have inner := handleNewHeader_topHeader.resolve_left makesTop
  rw [inner] at makesTop
  cases checked : s.chainman.chain.newHeader .dev header with
  | err =>
    rw [Chainman.validateAndApplyHeaderInner_of_err checked] at makesTop
    exact absurd rfl makesTop
  | fault =>
    rw [Chainman.validateAndApplyHeaderInner_of_fault checked] at makesTop
    exact absurd rfl makesTop
  | ok found =>
    cases found with
    | none =>
      rw [Chainman.validateAndApplyHeaderInner_of_none checked] at makesTop
      exact absurd rfl makesTop
    | some new =>
      obtain ⟨grows, same⟩ := Chainman.extends_of_newHeader checked
      obtain ⟨_, q, work, atParent, _, _, _, shape⟩ := Chain.newHeader_eq_ok_some.mp checked
      by_cases light : new.totalWork < s.chainman.chain.topHeader.totalWork
      · rw [Chainman.validateAndApplyHeaderInner_of_light checked light] at makesTop
        exact absurd rfl makesTop
      have heavy := Nat.le_of_not_lt light
      have step : new.number = q.number + 1 := by rw [shape]
      refine ⟨new, q, rfl, same, heavy, atParent, step, ?_⟩
      by_contra neither
      obtain ⟨apart, above⟩ := not_or.mp neither
      rw [← same] at apart
      rw [Chainman.validateAndApplyHeaderInner_of_heavy checked heavy,
        grows.applyNewTop_fault rooted step apart (Nat.lt_of_not_le above)] at makesTop
      exact absurd rfl makesTop

/-- On the old top the queue grows by the one new block. -/
theorem queueGrown_of_extension (rooted : s.chainman.chain.Rooted) {new : BlockHeaderWithNumber}
    (accepted : s.chainman.chain.newHeader .dev header = .ok (some new))
    (heavy : s.chainman.chain.topHeader.totalWork ≤ new.totalWork)
    (atTop : header.parent = s.chainman.chain.topHeader.header.hash) : QueueGrown s header := by
  obtain ⟨grows, same⟩ := Chainman.extends_of_newHeader accepted
  obtain ⟨unknown, q, work, atParent, _⟩ := Chain.newHeader_eq_ok_some.mp accepted
  have onTop : new.header.parent = s.chainman.chain.topHeader.header.hash := by rw [same, atTop]
  have applied : s.chainman.validateAndApplyHeaderInner .dev header false =
      ((s.chainman.learn new).setTop new, .ok (some ⟨[], [(new.header.hash, new.number)]⟩)) := by
    rw [Chainman.validateAndApplyHeaderInner_of_heavy accepted heavy, Chainman.applyNewTop_of_extension onTop]
  have fork := grows.forkResult_of_extension rooted onTop
  have call := handleNewHeader_of_applied unknown atParent applied
  change handleNewHeader .dev header s = (_, .ok ()) at call
  unfold QueueGrown
  rw [call]
  refine ⟨rfl, [⟨new.number, header.hash, .append⟩], s.chainman.chain.topHeader.header.hash, rfl, fork.common, ?_, ?_, ?_,
    ?_, ?_, ?_⟩
  · rw [← same]
    exact fork.added
  · exact List.nodup_singleton _
  · rw [← same]
    exact fork.order
  · intro e member
    rw [List.mem_singleton.mp member, ← same]
    exact grows.learn_heightOf_new.symm
  · intro ⟨hash, above⟩
    have gone := (fork.removed hash).mpr above
    cases gone
  · intro e member
    cases member

/-- A fork never grows the queue as it should. -/
theorem not_queueGrown_of_fork (rooted : s.chainman.chain.Rooted) {new : BlockHeaderWithNumber}
    (accepted : s.chainman.chain.newHeader .dev header = .ok (some new))
    (heavy : s.chainman.chain.topHeader.totalWork ≤ new.totalWork)
    (atParent : s.chainman.chain.knownHeaders header.parent = some q) (step : new.number = q.number + 1)
    (apart : header.parent ≠ s.chainman.chain.topHeader.header.hash) (level : q.number ≤ s.chainman.chain.topHeader.number) :
    ¬ QueueGrown s header := by
  obtain ⟨grows, same⟩ := Chainman.extends_of_newHeader accepted
  have unknown := (Chain.newHeader_eq_ok_some.mp accepted).1
  have learned := (grows.learn_rooted rooted).1
  obtain ⟨newNodes, visitedOld, count, m, applied, left, fork⟩ :=
    grows.applyNewTop_of_fork (p := .dev) rooted (by rw [same, atParent]) step (by rw [same]; exact apart) level
  rw [← Chainman.validateAndApplyHeaderInner_of_heavy accepted heavy] at applied
  have call := handleNewHeader_of_applied unknown atParent applied
  intro ⟨returns, entries, k, growth⟩
  rw [call] at returns growth
  dsimp only [Chainman.setTop] at returns growth
  cases listed : entriesFor .dev new.number header.hash ((new.header.hash, new.number) :: newNodes).reverse with
  | err =>
    rw [listed] at returns
    cases returns
  | fault =>
    rw [listed] at returns
    cases returns
  | ok appended =>
    rw [listed] at growth
    have whole : entries = appended := (List.append_cancel_left growth.queue).symm
    rw [whole] at growth
    have meet : m = k := learned.graded.lastCommon_unique learned.known_top fork.common growth.common
    rw [List.reverse_cons] at listed
    cases newNodes with
    | nil =>
      -- a single replacement is queued like an extension
      cases listed
      rw [meet] at left
      obtain ⟨e, rest, shape, strategy⟩ := growth.first ⟨_, left⟩
      cases shape
      cases strategy
    | cons node nodes =>
      obtain ⟨e, member, name, low⟩ := entriesFor_last (by simp) listed
      have high := growth.numbers e member
      rw [name] at high
      have height : (s.chainman.learn new).chain.heightOf new.header.hash = new.number := grows.learn_heightOf_new
      have equal : e.number = new.number := high.trans height
      omega

/-- In every reachable state the queue grows as it should exactly for the headers that
extend the old top. -/
theorem queue_of_reachable (reachable : Reachable p s)
    (makesTop : (handleNewHeader .dev header s).1.chainman.chain.topHeader ≠ s.chainman.chain.topHeader) :
    QueueGrown s header ↔ header.parent = s.chainman.chain.topHeader.header.hash := by
  have rooted := reachable.rooted
  obtain ⟨new, q, accepted, _, heavy, atParent, step, level⟩ := accepted_of_newTop rooted makesTop
  constructor
  · intro grown
    by_contra apart
    exact not_queueGrown_of_fork rooted accepted heavy atParent step apart (level.resolve_left apart) grown
  · exact queueGrown_of_extension rooted accepted heavy

/-! A new process that receives two headers on genesis. -/

def startWatcher : Watcher := ⟨startChainman, []⟩

theorem queue_of_reachable_child : QueueGrown startWatcher (genesisChild 1) :=
  (queue_of_reachable (p := .dev) .start (by decide)).mpr rfl

/-- The second header replaces the first, and its block is only appended. -/
theorem queue_of_reachable_fails :
    ¬ ∀ (p : Profile) (s : Watcher) (header : BlockHeaderOwned), Reachable p s →
      (handleNewHeader .dev header s).1.chainman.chain.topHeader ≠ s.chainman.chain.topHeader → QueueGrown s header := by
  intro claim
  have reachable : Reachable .dev (afterHeaders .dev startWatcher [genesisChild 1]) :=
    .received .start (headerStep_of_ok (by decide))
  have makesTop : (handleNewHeader .dev (genesisChild 2) (afterHeaders .dev startWatcher [genesisChild 1])).1.chainman.chain.topHeader ≠
      (afterHeaders .dev startWatcher [genesisChild 1]).chainman.chain.topHeader := by decide
  obtain ⟨new, q, accepted, _, heavy, atParent, step, level⟩ := accepted_of_newTop reachable.rooted makesTop
  have apart : (genesisChild 2).parent ≠
      (afterHeaders .dev startWatcher [genesisChild 1]).chainman.chain.topHeader.header.hash := by decide
  exact not_queueGrown_of_fork reachable.rooted accepted heavy atParent step apart (level.resolve_left apart)
    (claim .dev _ _ reachable makesTop)

end Bitlens

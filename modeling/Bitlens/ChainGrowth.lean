import Bitlens.Startup
import Bitlens.MissingBlocks

namespace Bitlens
open Lib

/-- Blocks are fetched after their parents. -/
def Chain.AncestorClosed (c : Chain) : Prop :=
  ∀ x y, c.parentOf x = some y → c.Fetched x → c.Fetched y

/-- The later chain has the known headers at their places, and exactly the blocks of the
list are fetched in addition. -/
structure Chain.Later (c d : Chain) (marked : List Hash) : Prop where
  known : ∀ hash, c.Known hash → d.Known hash
  parentOf : ∀ hash, c.Known hash → d.parentOf hash = c.parentOf hash
  fetched : ∀ hash, d.Fetched hash ↔ c.Fetched hash ∨ hash ∈ marked

namespace Chain

variable {c d : Chain} {marked : List Hash}

theorem Fetched.known {hash : Hash} (fetched : c.Fetched hash) : c.Known hash := by
  obtain ⟨b, stored, _⟩ := fetched
  rw [Known, stored]
  rfl

theorem AncestorClosed.descends (closed : c.AncestorClosed) {x y : Hash} (fetched : c.Fetched x)
    (path : Descends c.parentOf x y) : c.Fetched y := by
  induction path with
  | refl => exact fetched
  | tail _ edge ih => exact closed _ _ edge ih

theorem later_of_known (same : d.knownHeaders = c.knownHeaders) : c.Later d [] := by
  refine ⟨fun hash known => ?_, fun hash _ => ?_, fun hash => ?_⟩
  · rw [Known, same]
    exact known
  · simp only [parentOf, same]
  · simp only [Fetched, same, List.not_mem_nil, or_false]

theorem Later.trans {e : Chain} (first : c.Later d marked) {others : List Hash} (second : d.Later e others) :
    c.Later e (marked ++ others) := by
  refine ⟨fun hash known => second.known hash (first.known hash known), fun hash known => ?_, fun hash => ?_⟩
  · rw [second.parentOf hash (first.known hash known), first.parentOf hash known]
  · rw [second.fetched, first.fetched, List.mem_append, or_assoc]

theorem Later.congr {e : Chain} (later : c.Later d marked) (same : e.knownHeaders = d.knownHeaders) : c.Later e marked := by
  have both := later.trans (later_of_known same)
  rwa [List.append_nil] at both

theorem Later.parentsFirst {base wider : Hash → Prop} {nodes : List Hash} (later : c.Later d marked)
    (known : ∀ hash ∈ nodes, c.Known hash) (first : ParentsFirst c.parentOf base nodes)
    (grow : ∀ hash, base hash → wider hash) : ParentsFirst d.parentOf wider nodes := by
  induction nodes generalizing base wider with
  | nil => trivial
  | cons x xs ih =>
    refine ⟨fun y edge => ?_, ih (fun hash member => known hash (List.mem_cons_of_mem _ member)) first.2 ?_⟩
    · rw [later.parentOf x (known x List.mem_cons_self)] at edge
      exact grow y (first.1 y edge)
    · exact fun hash member => member.imp_left (grow hash)

/-- Marking blocks after their parents keeps the flags closed. -/
theorem Later.closed (later : c.Later d marked) (known : ∀ hash ∈ marked, c.Known hash)
    (first : ParentsFirst c.parentOf c.Fetched marked) (closed : c.AncestorClosed) : d.AncestorClosed := by
  intro x y edge fetched
  rw [later.fetched] at fetched ⊢
  rcases fetched with old | member
  · rw [later.parentOf x old.known] at edge
    exact Or.inl (closed x y edge old)
  · rw [later.parentOf x (known x member)] at edge
    exact first.parent_mem member edge

theorem Later.onMain (later : c.Later d marked) (rooted : c.Rooted) (top : d.topHeader.header = c.topHeader.header)
    {hash : Hash} : d.OnMain hash ↔ c.OnMain hash := by
  rw [OnMain, top]
  exact descends_congr (fun _ _ member edge => (rooted.graded _ _ member edge).1) (fun _ => later.parentOf _) rooted.known_top

theorem Later.descends (later : c.Later d marked) (rooted : c.Rooted) {x y : Hash} (known : c.Known x) :
    Descends d.parentOf x y ↔ Descends c.parentOf x y :=
  descends_congr (fun _ _ member edge => (rooted.graded _ _ member edge).1) (fun _ => later.parentOf _) known

end Chain

theorem Chainman.Marks.later {w w' : Chainman} {marked : List Hash} (marks : Chainman.Marks w w' marked) :
    w.chain.Later w'.chain marked := by
  refine ⟨fun hash known => marks.known_iff.mpr known, fun hash _ => by rw [marks.parentOf], fun hash => marks.fetched_iff⟩

theorem Chainman.later_learn {p : Profile} {w : Chainman} {header : BlockHeaderOwned} {new : BlockHeaderWithNumber}
    (accepted : w.chain.newHeader p header = .ok (some new)) : w.chain.Later (w.learn new).chain [] := by
  obtain ⟨grows, _⟩ := extends_of_newHeader accepted
  obtain ⟨_, _, _, _, _, _, _, shape⟩ := Chain.newHeader_eq_ok_some.mp accepted
  refine ⟨fun hash known => ?_, fun hash known => grows.learn_parentOf known, fun hash => ?_⟩
  · rw [Chain.Known, learn_known_of_ne (grows.ne_of_known known)]
    exact known
  · rw [List.mem_nil_iff, or_false]
    constructor
    · rintro ⟨b, stored, flag⟩
      rcases learn_known_cases stored with ⟨_, same⟩ | before
      · rw [same, shape] at flag
        cases flag
      · exact ⟨b, before, flag⟩
    · rintro ⟨b, stored, flag⟩
      have known : w.chain.Known hash := by rw [Chain.Known, stored]; rfl
      exact ⟨b, by rw [learn_known_of_ne (grows.ne_of_known known), stored], flag⟩

/-! The top and the number of downloaded blocks. -/

/-- The record of the top; at height zero its header may be the default one. -/
structure Chain.Topped (c : Chain) : Prop where
  rooted : c.Rooted
  held : c.topHeader.number = 0 ∨ c.WellFormed
  flagged : c.topHeader.fetchedFull = true → c.Fetched c.topHeader.header.hash

def Chainman.Counted (w : Chainman) : Prop :=
  w.downloadedBlocks ≤ w.chain.topHeader.number + 1 ∧
    (w.chain.topHeader.number < w.downloadedBlocks → w.chain.Fetched w.chain.topHeader.header.hash)

namespace Chain

variable {c : Chain}

theorem Topped.congr {d : Chain} (topped : c.Topped) (known : d.knownHeaders = c.knownHeaders)
    (top : d.topHeader = c.topHeader) : d.Topped := by
  refine ⟨topped.rooted.congr known (congrArg (·.header) top) (congrArg (·.number) top), ?_, ?_⟩
  · rw [top]
    refine topped.held.imp_right fun wf => ⟨?_, ?_, ?_⟩
    · rw [known]
      exact wf.keyed
    · rw [known]
      exact wf.parents
    · rw [Holds, known, top]
      exact wf.top
  · rw [top, Fetched, known]
    exact topped.flagged

theorem Topped.counted (topped : c.Topped) {count : Nat} (result : c.calculateDownloadedBlocks = .ok count) :
    count ≤ c.topHeader.number + 1 ∧ (c.topHeader.number < count → c.Fetched c.topHeader.header.hash) := by
  rcases topped.held with bottom | wf
  · rw [calculateDownloadedBlocks, bottom, calculateDownloadedBlocksLoop, if_pos bottom, bottom] at result
    rw [bottom]
    split at result
    · next flag =>
      cases result
      exact ⟨le_rfl, fun _ => topped.flagged flag⟩
    · cases result
      exact ⟨Nat.zero_le _, fun more => absurd more (Nat.lt_irrefl _)⟩
  · obtain ⟨bound, more⟩ := wf.calculateDownloadedBlocksLoop_le _ _ wf.top result
    exact ⟨bound, fun above => topped.flagged (more.mp above)⟩

theorem Topped.of_setTop {p : Profile} {w : Chainman} {header : BlockHeaderOwned} {new : BlockHeaderWithNumber}
    (rooted : w.chain.Rooted) (accepted : w.chain.newHeader p header = .ok (some new)) :
    ((w.learn new).setTop new).chain.Topped := by
  obtain ⟨grows, _⟩ := Chainman.extends_of_newHeader accepted
  obtain ⟨_, _, _, _, _, _, _, shape⟩ := newHeader_eq_ok_some.mp accepted
  have after := (grows.learn_rooted rooted).2
  refine ⟨after, Or.inr ⟨after.keyed, after.parents, new, Chainman.learn_known_self, rfl, rfl⟩, fun flag => ?_⟩
  rw [show ((w.learn new).setTop new).chain.topHeader = new from rfl, shape] at flag
  cases flag

theorem Topped.learn {p : Profile} {w : Chainman} {header : BlockHeaderOwned} {new : BlockHeaderWithNumber}
    (topped : w.chain.Topped) (accepted : w.chain.newHeader p header = .ok (some new)) : (w.learn new).chain.Topped := by
  obtain ⟨grows, _⟩ := Chainman.extends_of_newHeader accepted
  have later := Chainman.later_learn accepted
  refine ⟨(grows.learn_rooted topped.rooted).1, topped.held.imp_right grows.learn_wellFormed, fun flag => ?_⟩
  exact (later.fetched _).mpr (Or.inl (topped.flagged flag))

end Chain

variable {p : Profile} {w w' : Chainman} {call : BlockHeaderOwned × Bool}

/-- The step lemmas for a header. -/
theorem HeaderCall.topped (step : HeaderCall p w call w') (topped : w.chain.Topped) :
    w'.chain.Topped ∧ w.chain.Later w'.chain [] := by
  rcases step.cases with ⟨_, same⟩ | ⟨new, accepted, ⟨_, same⟩ | ⟨_, same⟩⟩
  · rw [same]
    exact ⟨topped, Chain.later_of_known rfl⟩
  · rw [same]
    exact ⟨topped.learn accepted, Chainman.later_learn accepted⟩
  · rw [same]
    exact ⟨.of_setTop topped.rooted accepted, (Chainman.later_learn accepted).congr rfl⟩

/-! The snapshot of the blocks to download. -/

namespace Chain

variable {c : Chain}

/-- The walk of `get_block_hashes_to_download`, read backwards, lists parents first and
leaves out no main-chain block that is not fetched. -/
theorem WellFormed.listed_of_walk (wf : c.WellFormed) (closed : c.AncestorClosed) {nodes : List Hash} {lowest : Nat}
    (length : lowest + nodes.length = c.topHeader.number + 1) (ends : c.Bottom c.topHeader lowest)
    (path : ∀ (i : Nat) hash, nodes[i]? = some hash → c.OnMain hash ∧ c.heightOf hash + i = c.topHeader.number) :
    ParentsFirst c.parentOf c.Fetched nodes.reverse ∧ ∀ hash, c.OnMain hash → c.Fetched hash ∨ hash ∈ nodes.reverse := by
  have below : ∀ hash, c.OnMain hash → ¬ lowest ≤ c.heightOf hash → c.Fetched hash := fun hash onMain lower =>
    wf.fetched_below (fun _ _ => closed.descends) ends onMain (Nat.lt_of_not_le lower)
  constructor
  · refine parentsFirst_of_sorted c.heightOf ?_ fun x inList y edge => ?_
    · rw [List.pairwise_reverse, List.pairwise_iff_getElem]
      intro i j first second order
      have high := (path i _ (List.getElem?_eq_getElem first)).2
      have low := (path j _ (List.getElem?_eq_getElem second)).2
      omega
    · obtain ⟨i, found⟩ := List.mem_iff_getElem?.mp (List.mem_reverse.mp inList)
      have onMain := (path i x found).1
      obtain ⟨_, step⟩ := wf.graded _ _ (wf.known_of_onMain onMain) edge
      have onParent : c.OnMain y := onMain.tail edge
      by_cases above : lowest ≤ c.heightOf y
      · exact Or.inr ⟨List.mem_reverse.mpr (wf.mem_walk length path onParent above), by omega⟩
      · exact Or.inl (below y onParent above)
  · intro hash onMain
    by_cases above : lowest ≤ c.heightOf hash
    · exact Or.inr (List.mem_reverse.mpr (wf.mem_walk length path onMain above))
    · exact Or.inl (below hash onMain above)

end Chain

/-- What the snapshot lists. -/
theorem Chainman.listed_of_snapshot (topped : w.chain.Topped) (closed : w.chain.AncestorClosed) (counted : w.Counted)
    {answer : Option (List Hash × Nat)} (result : w.getBlockHashesToDownload = .ok answer) :
    (∀ hash ∈ (answer.map Prod.fst).getD [], w.chain.Known hash) ∧
      ParentsFirst w.chain.parentOf w.chain.Fetched ((answer.map Prod.fst).getD []) ∧
      ∀ hash, w.chain.OnMain hash → w.chain.Fetched hash ∨ hash ∈ (answer.map Prod.fst).getD [] := by
  unfold getBlockHashesToDownload at result
  split at result
  · next all =>
    cases result
    exact ⟨fun _ member => absurd member List.not_mem_nil, trivial,
      fun hash onMain => Or.inl (closed.descends (counted.2 all) onMain)⟩
  rcases topped.held with bottom | wf
  · rw [bottom, getBlockHashesLoop, if_pos bottom] at result
    cases result
    obtain ⟨stored, atTop, number⟩ := topped.rooted.top
    have root : w.chain.parentOf w.chain.topHeader.header.hash = none := by
      rw [Chain.parentOf_of_known atTop, number, if_pos bottom]
    refine ⟨fun hash member => ?_, ⟨fun y edge => ?_, trivial⟩, fun hash onMain => ?_⟩
    · rw [List.mem_singleton.mp member]
      exact topped.rooted.known_top
    · rw [root] at edge
      cases edge
    · rw [(descends_iff_of_root root).mp onMain]
      exact Or.inr List.mem_cons_self
  · obtain ⟨nodes, lowest, walked, length, ends, path, _⟩ :=
      wf.getBlockHashesLoop (w.chain.topHeader.number + 1) w.chain.topHeader [] wf.top (Nat.lt_succ_self _)
    rw [walked] at result
    cases result
    refine ⟨fun hash member => ?_, wf.listed_of_walk closed length ends path⟩
    obtain ⟨i, found⟩ := List.mem_iff_getElem?.mp (List.mem_reverse.mp member)
    exact wf.known_of_onMain (path i hash found).1

/-! A header that the chain watcher handles. -/

/-- The parent of a heavier header is the top or not above it. With overflow checks the
call panics otherwise. -/
def Chain.Attached (c : Chain) (header : BlockHeaderOwned) : Prop :=
  ∀ q, c.knownHeaders header.parent = some q → header.parent = c.topHeader.header.hash ∨ q.number ≤ c.topHeader.number

/-- What a new top does to the watcher: the entries are the blocks from the last common
ancestor of both tops up to the new one, parents first. -/
structure NewTop (s t : Watcher) (new : BlockHeaderWithNumber) (entries : List QueueEntry) (m : Hash) : Prop where
  known : t.chainman.chain.knownHeaders = (s.chainman.learn new).chain.knownHeaders
  top : t.chainman.chain.topHeader = new
  queue : t.queue = s.queue ++ entries
  common : LastCommon (s.chainman.learn new).chain.parentOf s.chainman.chain.topHeader.header.hash new.header.hash m
  blocks : ∀ hash, hash ∈ entries.map (·.hash) ↔ Above (s.chainman.learn new).chain.parentOf new.header.hash m hash
  order : ParentsFirst (s.chainman.learn new).chain.parentOf (· = m) (entries.map (·.hash))
  counted : (t.chainman.downloadedBlocks = s.chainman.downloadedBlocks ∧
      new.number = s.chainman.chain.topHeader.number + 1) ∨
    ((s.chainman.learn new).setTop new).chain.calculateDownloadedBlocks = .ok t.chainman.downloadedBlocks

variable {s t : Watcher} {header : BlockHeaderOwned} {new : BlockHeaderWithNumber}

theorem entriesFor_hashes {top : Nat} {hash : Hash} {blocks : List (Hash × Nat)} {entries : List QueueEntry}
    (single : ∀ block, blocks = [block] → block.1 = hash) (result : entriesFor p top hash blocks = .ok entries) :
    entries.map (·.hash) = blocks.map Prod.fst := by
  rw [entriesFor] at result
  split at result
  · next one =>
    obtain ⟨block, same⟩ := List.length_eq_one_iff.mp one
    cases result
    rw [same, ← single block same]
    rfl
  · obtain ⟨_, _, result⟩ := Outcome.bind_eq_ok.mp result
    obtain ⟨_, _, result⟩ := Outcome.bind_eq_ok.mp result
    exact forkEntries_hashes result

theorem Chainman.applyNewTop_counted {result : Option HeaderApplicationResult}
    (apart : new.header.parent ≠ w.chain.topHeader.header.hash) (applied : w.applyNewTop p new = (w', .ok result)) :
    (w.setTop new).chain.calculateDownloadedBlocks = .ok w'.downloadedBlocks := by
  rw [applyNewTop, if_neg apart] at applied
  split at applied
  · split at applied
    · next count counted =>
      cases applied
      exact counted
    · cases applied
  · cases applied

/-- A heavy header is the new top of a call that returns. -/
theorem newTop_of_heavy {q : BlockHeaderWithNumber} (rooted : s.chainman.chain.Rooted)
    (attached : p = .release → s.chainman.chain.Attached header)
    (atParent : s.chainman.chain.knownHeaders header.parent = some q)
    (accepted : s.chainman.chain.newHeader p header = .ok (some new))
    (heavy : s.chainman.chain.topHeader.totalWork ≤ new.totalWork) (handled : handleNewHeader p header s = (t, .ok ())) :
    ∃ entries m, NewTop s t new entries m := by
  obtain ⟨grows, same⟩ := Chainman.extends_of_newHeader accepted
  obtain ⟨unknown, q', _, atParent', _, _, _, shape⟩ := Chain.newHeader_eq_ok_some.mp accepted
  cases atParent.symm.trans atParent'
  have step : new.number = q.number + 1 := by rw [shape]
  have inner := Chainman.validateAndApplyHeaderInner_of_heavy accepted heavy
  by_cases atTop : new.header.parent = s.chainman.chain.topHeader.header.hash
  · have applied := inner.trans (Chainman.applyNewTop_of_extension atTop)
    have fork := grows.forkResult_of_extension rooted atTop
    have level : q.number = s.chainman.chain.topHeader.number := by
      obtain ⟨stored, known, number⟩ := rooted.top
      rw [← same, atTop, known] at atParent
      rw [← number, Option.some.inj atParent]
    rw [handleNewHeader_of_applied unknown atParent' applied] at handled
    split at handled
    · next entries listed =>
      have names := entriesFor_hashes (fun block single => by rw [← List.singleton_injective single, ← same]) listed
      cases handled
      exact ⟨entries, _, rfl, rfl, rfl, fork.common, by rw [names]; exact fork.added, by rw [names]; exact fork.order,
        Or.inl ⟨rfl, by rw [step, level]⟩⟩
    · cases handled
  · have level : q.number ≤ s.chainman.chain.topHeader.number := by
      cases p with
      | release => exact (attached rfl q atParent).resolve_left (by rw [← same]; exact atTop)
      | dev =>
        by_contra above
        rw [handleNewHeader, unknown, atParent, if_neg (by simp), if_neg (by simp), inner,
          grows.applyNewTop_fault rooted step atTop (Nat.lt_of_not_le above)] at handled
        cases handled
    obtain ⟨newNodes, visitedOld, count, m, result, _, fork⟩ :=
      grows.applyNewTop_of_fork (p := p) rooted (by rw [same]; exact atParent) step atTop level
    have counted := @Chainman.applyNewTop_counted p (s.chainman.learn new) _ new _ atTop result
    rw [handleNewHeader_of_applied unknown atParent' (inner.trans result)] at handled
    split at handled
    · next entries listed =>
      have names := entriesFor_hashes (fun block single => by
        have last := congrArg List.reverse single
        rw [List.reverse_reverse, List.reverse_singleton] at last
        rw [← (List.cons.inj last).1, ← same]) listed
      cases handled
      exact ⟨entries, m, rfl, rfl, rfl, fork.common, by rw [names]; exact fork.added, by rw [names]; exact fork.order,
        Or.inr counted⟩
    · cases handled

/-- What a call that returns has done: nothing, or it has stored the header, below the
old top or as the new one. -/
theorem handleNewHeader_spec (rooted : s.chainman.chain.Rooted)
    (attached : ∀ new, s.chainman.chain.newHeader p header = .ok (some new) →
      s.chainman.chain.topHeader.totalWork ≤ new.totalWork → p = .release → s.chainman.chain.Attached header)
    (handled : handleNewHeader p header s = (t, .ok ())) :
    t = s ∨ ∃ new, s.chainman.chain.newHeader p header = .ok (some new) ∧
      (t = ⟨s.chainman.learn new, s.queue⟩ ∨
        s.chainman.chain.topHeader.totalWork ≤ new.totalWork ∧ ∃ entries m, NewTop s t new entries m) := by
  have call := handled
  unfold handleNewHeader at call
  split at call
  · cases call
    exact Or.inl rfl
  split at call
  · cases call
    exact Or.inl rfl
  next parentKnown =>
  obtain ⟨q, atParent⟩ := Option.ne_none_iff_exists'.mp fun absent => parentKnown (Option.isNone_iff_eq_none.mpr absent)
  cases checked : s.chainman.chain.newHeader p header with
  | err =>
    rw [Chainman.validateAndApplyHeaderInner_of_err checked] at call
    exact Or.inl (Prod.mk.inj call).1.symm
  | fault =>
    rw [Chainman.validateAndApplyHeaderInner_of_fault checked] at call
    cases (Prod.mk.inj call).2
  | ok found =>
    cases found with
    | none =>
      rw [Chainman.validateAndApplyHeaderInner_of_none checked] at call
      exact Or.inl (Prod.mk.inj call).1.symm
    | some new =>
      refine Or.inr ⟨new, rfl, ?_⟩
      by_cases light : new.totalWork < s.chainman.chain.topHeader.totalWork
      · rw [Chainman.validateAndApplyHeaderInner_of_light checked light] at call
        exact Or.inl (Prod.mk.inj call).1.symm
      · have heavy := Nat.le_of_not_lt light
        exact Or.inr ⟨heavy, newTop_of_heavy rooted (attached new checked heavy) atParent checked heavy handled⟩

/-! Marked blocks. -/

namespace Chainman

/-- The top stays, with the flag of its record. -/
theorem topped_of_markAsDownloaded {blocks : List (Hash × Bytes)} (topped : w.chain.Topped)
    (result : w.markAsDownloaded blocks = .ok w') : w'.chain.Topped ∧ w'.Counted ∧
      w'.chain.topHeader.header = w.chain.topHeader.header ∧ w.chain.Later w'.chain (blocks.map Prod.fst) := by
  have marks := marks_of_markAsDownloaded result
  have rooted := markAsDownloaded_rooted result topped.rooted
  obtain ⟨marked, all, result⟩ := Outcome.bind_eq_ok.mp result
  obtain ⟨top, atTop, result⟩ := Outcome.bind_eq_ok.mp result
  obtain ⟨count, counted, result⟩ := Outcome.bind_eq_ok.mp result
  have sameTop := markAll_topHeader (Outcome.unwrap_eq_ok.mp all)
  have atTop := Outcome.unwrap_eq_ok.mp atTop
  cases result
  have after : (marked.setTop { marked.chain.topHeader with fetchedFull := top.fetchedFull }).chain.Topped :=
    ⟨rooted, marks.held topped.held (congrArg (·.header) sameTop) (congrArg (·.number) sameTop),
      fun flag => ⟨top, atTop, flag⟩⟩
  exact ⟨after, after.counted counted, congrArg (·.header) sameTop, marks.later⟩

end Chainman

theorem analyzesBlock_of_analyzed {scripts : Scripts} {arena : Arena} {block : Block} {deps : List TxOut}
    {analyzed : AnalyzedBlock} {coinbaseAscii : Bytes} {consumed : Nat}
    (result : analyzeBlock p scripts arena block deps = .ok (analyzed, coinbaseAscii, consumed)) :
    AnalyzesBlock p scripts block analyzed := by
  obtain ⟨_, _, result⟩ := Outcome.bind_eq_ok.mp result
  obtain ⟨⟨records, used⟩, analysis, result⟩ := Outcome.bind_eq_ok.mp result
  obtain ⟨_, _, result⟩ := Outcome.bind_eq_ok.mp result
  obtain ⟨_, _, shape⟩ := Outcome.bind_eq_ok.mp result
  cases shape
  obtain ⟨⟨totals, recorded⟩, _⟩ := analyzeTxs_spending analysis
  exact analyzesBlock_of_records recorded

/-- What applying a known block does: nothing, or it writes and marks the block. -/
theorem applyBlock_cases {scripts : Scripts} {env : Surroundings} {block : Block} {strategy : FrontPageDataUpdateStrategy}
    {done : List KeepupEffect} {outcome : Outcome Unit} (topped : w.chain.Topped) (known : w.chain.Known block.header.hash)
    (result : applyBlock p scripts env block strategy w = (w', done, outcome)) :
    (w' = w ∧ done = [] ∧ (outcome = .ok () → ∃ pending handles,
        pendingDeps (selfTxs block) block.spends [] = .ok (pending, handles) ∧ ownedDeps env.lookup 0 handles = none)) ∨
      ∃ analyzed coinbaseAscii, AnalyzesBlock p scripts block analyzed ∧ (∃ a, arrays p [analyzed] = .ok a) ∧
        w.markAsDownloaded [(block.header.hash, coinbaseAscii)] = .ok w' ∧
          done = [.wroteAnalyzedTxs analyzed, .markedAsDownloaded block.header.hash] := by
  unfold applyBlock at result
  split at result
  · next pending handles spawned =>
    split at result
    · next failed =>
      cases result
      exact Or.inl ⟨rfl, rfl, fun _ => ⟨pending, handles, spawned, failed⟩⟩
    split at result
    · next analyzed coinbaseAscii consumed both =>
      obtain ⟨deps, _, analysis⟩ := Outcome.bind_eq_ok.mp both
      split at result
      · next taken written =>
        obtain ⟨a, collected, _⟩ := Outcome.bind_eq_ok.mp written
        split at result
        · next marked =>
          cases result
          exact Or.inr ⟨analyzed, coinbaseAscii, analyzesBlock_of_analyzed analysis, ⟨a, collected⟩, marked, rfl⟩
        · next panics =>
          obtain ⟨marked, returns⟩ :=
            Chainman.exists_markAsDownloaded topped.held topped.rooted.known_top known coinbaseAscii
          exact absurd returns (panics marked)
      · cases result
        exact Or.inl ⟨rfl, rfl, fun returns => by cases returns⟩
    · cases result
      exact Or.inl ⟨rfl, rfl, fun returns => by cases returns⟩
  · cases result
    exact Or.inl ⟨rfl, rfl, fun returns => by cases returns⟩

end Bitlens

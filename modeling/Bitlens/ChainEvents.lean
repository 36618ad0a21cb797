import Bitlens.AddressIndex
import Bitlens.TopHeader

namespace Bitlens
open Lib

/-- What changes the chain in memory or the index: a header from a peer, a page of
headers in header sync, the end of header sync, and a batch of blocks with their coinbase
scripts, which is written and marked. -/
inductive ChainEvent where
  | header (received : BlockHeaderOwned)
  | headers (page : List BlockHeaderOwned)
  | synced
  | applied (batch : List (KnownBlock × Bytes))

/-- The queue of the chain watcher has no part in what a header does to the chain. -/
def ChainEvent.next (p : Profile) (w : Chainman) : ChainEvent → Outcome Chainman
  | .header received =>
    match handleNewHeader p received ⟨w, []⟩ with
    | (t, .ok _) => .ok t.chainman
    | _ => .fault
  | .headers page =>
    match w.validateAndApplyHeaders p page with
    | (_, .fault) => .fault
    | (w', _) => .ok w'
  | .synced => do
    let count ← w.chain.calculateDownloadedBlocks
    let chain ← w.chain.generateTopWorkChainHashset
    pure { w with chain := chain, downloadedBlocks := count }
  | .applied batch => w.markAsDownloaded (batch.map fun block => (block.1.header.hash, block.2))

/-- The chain in memory and the stores. -/
structure IndexedChain where
  chainman : Chainman
  stores : Stores

def IndexedChain.Step (p : Profile) (s : IndexedChain) (event : ChainEvent) (t : IndexedChain) : Prop :=
  event.next p s.chainman = .ok t.chainman ∧
    match event with
    | .applied batch => IndexesBatch p s.stores (batch.map Prod.fst) t.stores
    | _ => t.stores = s.stores

/-- The batches that the events write. -/
def historyOf (events : List ChainEvent) : List (List KnownBlock) :=
  events.filterMap fun event =>
    match event with
    | .applied batch => some (batch.map Prod.fst)
    | _ => none

/-- The header tree is well formed and knows the blocks of the main-chain index. -/
structure Chain.Sound (c : Chain) : Prop where
  wellFormed : c.WellFormed
  known : ∀ hash ∈ c.mostWorkChain, c.Known hash

variable {p : Profile} {w w' : Chainman} {s t : IndexedChain} {event : ChainEvent} {events : List ChainEvent}

theorem indexedBy_of_run (run : Run (IndexedChain.Step p) s events t) (empty : s.stores = .empty) :
    IndexedBy p (historyOf events) t.stores := by
  induction run with
  | nil =>
    rw [empty]
    exact .nil
  | @snoc events event t u _ step ih =>
    rw [historyOf, List.filterMap_append]
    cases event with
    | applied batch => exact ih.snoc step.2
    | header received =>
      rw [show u.stores = t.stores from step.2]
      simpa [historyOf] using ih
    | headers page =>
      rw [show u.stores = t.stores from step.2]
      simpa [historyOf] using ih
    | synced =>
      rw [show u.stores = t.stores from step.2]
      simpa [historyOf] using ih

/-! The blocks of the main-chain index stay known. -/

namespace Chain

variable {c : Chain}

/-- Every block that the fork walk visits on the new side is known. -/
theorem stepBack_known {fuel xNumber yNumber : Nat} {x y : Hash} {visitedNew visitedOld : List (Hash × Nat)}
    {result : List (Hash × Nat) × List (Hash × Nat)}
    (walked : c.stepBack p fuel x xNumber y yNumber visitedNew visitedOld = .ok result)
    (known : ∀ entry ∈ visitedNew, c.Known entry.1) : ∀ entry ∈ result.1, c.Known entry.1 := by
  induction fuel generalizing x xNumber y yNumber visitedNew visitedOld with
  | zero => cases walked
  | succ fuel ih =>
    rw [stepBack] at walked
    split at walked
    · cases walked
      exact known
    · obtain ⟨old, _, walked⟩ := Outcome.bind_eq_ok.mp walked
      obtain ⟨nextOldNumber, _, walked⟩ := Outcome.bind_eq_ok.mp walked
      obtain ⟨new, atNew, walked⟩ := Outcome.bind_eq_ok.mp walked
      obtain ⟨nextNewNumber, _, walked⟩ := Outcome.bind_eq_ok.mp walked
      refine ih walked fun entry member => ?_
      rcases List.mem_append.mp member with older | last
      · exact known entry older
      · rw [List.mem_singleton.mp last]
        exact Option.isSome_iff_exists.mpr ⟨new, Outcome.unwrap_eq_ok.mp atNew⟩

theorem forkWalk_known {new : BlockHeaderWithNumber} {parentNumber : Nat} {result : List (Hash × Nat) × List (Hash × Nat)}
    (walked : c.forkWalk p new parentNumber = .ok result) (known : c.Known new.header.hash) :
    ∀ entry ∈ result.1, c.Known entry.1 := by
  obtain ⟨aligned, _, walked⟩ := Outcome.bind_eq_ok.mp walked
  exact stepBack_known walked fun entry member => by rw [List.mem_singleton.mp member]; exact known

theorem mem_updateMostWorkChain {result : HeaderApplicationResult} {hash : Hash}
    (member : hash ∈ (c.updateMostWorkChain result).mostWorkChain) :
    hash ∈ c.mostWorkChain ∨ ∃ entry ∈ result.addedBlocks, entry.1 = hash := by
  have erased : ∀ (removed : List (Hash × Nat)) (set : Finset Hash),
      hash ∈ removed.foldl (fun set entry => set.erase entry.1) set → hash ∈ set := by
    intro removed
    induction removed with
    | nil => exact fun _ inSet => inSet
    | cons entry removed ih => exact fun set inSet => Finset.mem_of_mem_erase (ih _ inSet)
  have inserted : ∀ (added : List (Hash × Nat)) (set : Finset Hash),
      hash ∈ added.foldl (fun set entry => insert entry.1 set) set → hash ∈ set ∨ ∃ entry ∈ added, entry.1 = hash := by
    intro added
    induction added with
    | nil => exact fun _ inSet => Or.inl inSet
    | cons entry added ih =>
      intro set inSet
      rcases ih _ inSet with early | ⟨later, inAdded, same⟩
      · rcases Finset.mem_insert.mp early with same | old
        · exact Or.inr ⟨entry, List.mem_cons_self, same.symm⟩
        · exact Or.inl old
      · exact Or.inr ⟨later, List.mem_cons_of_mem _ inAdded, same⟩
  rcases inserted _ _ member with kept | added
  · exact Or.inl (erased _ _ kept)
  · exact Or.inr added

end Chain

/-! What the events do to the chain. -/

theorem HeaderCall.known {call : BlockHeaderOwned × Bool} (step : HeaderCall p w call w') :
    w'.chain.mostWorkChain = w.chain.mostWorkChain ∧ ∀ hash, w.chain.Known hash → w'.chain.Known hash := by
  have learned : ∀ (new : BlockHeaderWithNumber) hash, w.chain.Known hash → (w.learn new).chain.Known hash := by
    intro new hash known
    by_cases same : hash = new.header.hash
    · rw [same]
      exact Option.isSome_iff_exists.mpr ⟨new, Chainman.learn_known_self⟩
    · rw [Chain.Known, Chainman.learn_known_of_ne same]
      exact known
  rcases step.cases with ⟨_, same⟩ | ⟨new, _, ⟨_, same⟩ | ⟨_, same⟩⟩
  · rw [same]
    exact ⟨rfl, fun _ known => known⟩
  · rw [same]
    exact ⟨rfl, learned new⟩
  · rw [same]
    exact ⟨rfl, learned new⟩

theorem HeaderCall.sound {call : BlockHeaderOwned × Bool} (step : HeaderCall p w call w') (sound : w.chain.Sound) :
    w'.chain.Sound := by
  obtain ⟨same, known⟩ := step.known
  refine ⟨step.wellFormed sound.wellFormed, fun hash member => known hash (sound.known hash ?_)⟩
  rw [← same]
  exact member

theorem added_known {header : BlockHeaderOwned} {result : HeaderApplicationResult}
    (applied : w.validateAndApplyHeaderInner p header false = (w', .ok (some result))) :
    ∀ entry ∈ result.addedBlocks, w'.chain.Known entry.1 := by
  unfold Chainman.validateAndApplyHeaderInner at applied
  split at applied
  · next new checked =>
    have learned : (w.learn new).chain.Known new.header.hash := Option.isSome_iff_exists.mpr ⟨new, Chainman.learn_known_self⟩
    have same := (Chainman.applyNewTop_knownHeaders (p := p) (w.learn new) new).1
    split at applied
    · cases applied
    rw [if_neg Bool.false_ne_true] at applied
    have here : ∀ hash, (w.learn new).chain.Known hash → w'.chain.Known hash := by
      intro hash known
      rw [applied] at same
      rw [Chain.Known, same]
      exact known
    unfold Chainman.applyNewTop at applied
    split at applied
    · cases applied
      intro entry member
      rw [List.mem_singleton.mp member]
      exact here _ learned
    split at applied
    · next visitedNew visitedOld walked =>
      have visited := Chain.forkWalk_known walked learned
      split at applied
      · cases applied
        exact fun entry member => here _ (visited entry (List.mem_reverse.mp member))
      · cases applied
    · cases applied
  · cases applied
  · cases applied
  · cases applied

theorem validateAndApplyHeaders_run {page : List BlockHeaderOwned} {result : Outcome Unit}
    (applied : w.validateAndApplyHeaders p page = (w', result)) (returns : result ≠ .fault) :
    ∃ calls, Run (HeaderCall p) w calls w' := by
  induction page generalizing w with
  | nil =>
    cases applied
    exact ⟨[], .nil⟩
  | cons header page ih =>
    rw [Chainman.validateAndApplyHeaders] at applied
    cases inner : w.validateAndApplyHeaderInner p header true with
    | mk next outcome =>
      rw [inner] at applied
      cases outcome with
      | ok found =>
        obtain ⟨calls, rest⟩ := ih applied
        exact ⟨(header, true) :: calls, .cons ⟨_, inner, by simp⟩ rest⟩
      | err =>
        cases applied
        exact ⟨[(header, true)], .single ⟨_, inner, by simp⟩⟩
      | fault =>
        cases applied
        exact absurd rfl returns

theorem markAll_mostWorkChain {blocks : List (Hash × Bytes)} (result : w.markAll blocks = some w') :
    w'.chain.mostWorkChain = w.chain.mostWorkChain := by
  induction blocks generalizing w with
  | nil =>
    cases result
    rfl
  | cons block blocks ih =>
    obtain ⟨middle, first, rest⟩ := Option.bind_eq_some_iff.mp result
    obtain ⟨h, _, same⟩ := Option.map_eq_some_iff.mp first
    rw [ih rest, ← same]

theorem markAsDownloaded_mostWorkChain {blocks : List (Hash × Bytes)} (result : w.markAsDownloaded blocks = .ok w') :
    w'.chain.mostWorkChain = w.chain.mostWorkChain := by
  obtain ⟨marked, all, result⟩ := Outcome.bind_eq_ok.mp result
  obtain ⟨top, _, result⟩ := Outcome.bind_eq_ok.mp result
  obtain ⟨count, _, result⟩ := Outcome.bind_eq_ok.mp result
  have same := markAll_mostWorkChain (Outcome.unwrap_eq_ok.mp all)
  cases result
  exact same

theorem handleNewHeader_sound {header : BlockHeaderOwned} {before after : Watcher}
    (handled : handleNewHeader p header before = (after, .ok ())) (sound : before.chainman.chain.Sound) :
    after.chainman.chain.Sound := by
  rcases handleNewHeader_cases handled with same | ⟨middle, outcome, applied, noFault, kept⟩
  · rw [same]
    exact sound
  have call : HeaderCall p before.chainman (header, false) middle := ⟨outcome, applied, noFault⟩
  have inner := call.sound sound
  rcases kept with same | ⟨result, rfl, same⟩
  · rw [same]
    exact inner
  · rw [same]
    refine ⟨⟨inner.wellFormed.keyed, inner.wellFormed.parents, inner.wellFormed.top⟩, fun hash member => ?_⟩
    rcases Chain.mem_updateMostWorkChain member with old | ⟨entry, added, rfl⟩
    · exact inner.known hash old
    · exact added_known applied entry added

theorem generateTopWorkChainHashset_sound {c c' : Chain} (built : c.generateTopWorkChainHashset = .ok c')
    (wf : c.WellFormed) : c'.Sound := by
  obtain ⟨set, map, result, indexed⟩ := wf.generateTopWorkChainHashset
  cases built.symm.trans result
  have after : Chain.WellFormed { c with mostWorkChain := set, numberToHash := map } := ⟨wf.keyed, wf.parents, wf.top⟩
  exact ⟨after, fun hash member => after.known_of_onMain ((indexed.members hash).mp member)⟩

theorem markAsDownloaded_sound {blocks : List (Hash × Bytes)} (result : w.markAsDownloaded blocks = .ok w')
    (sound : w.chain.Sound) : w'.chain.Sound := by
  have marks := Chainman.marks_of_markAsDownloaded result
  have sameChain := markAsDownloaded_mostWorkChain result
  obtain ⟨marked, all, result⟩ := Outcome.bind_eq_ok.mp result
  obtain ⟨top, _, result⟩ := Outcome.bind_eq_ok.mp result
  obtain ⟨count, _, result⟩ := Outcome.bind_eq_ok.mp result
  have sameTop := Chainman.markAll_topHeader (Outcome.unwrap_eq_ok.mp all)
  cases result
  refine ⟨marks.wellFormed sound.wellFormed (congrArg (·.header) sameTop) (congrArg (·.number) sameTop), ?_⟩
  intro hash member
  exact marks.known_iff.mpr (sound.known hash (sameChain ▸ member))

/-- The step lemma of soundness. -/
theorem ChainEvent.sound (happens : event.next p w = .ok w') (sound : w.chain.Sound) : w'.chain.Sound := by
  cases event with
  | header received =>
    rw [ChainEvent.next] at happens
    split at happens
    · next after handled =>
      cases happens
      exact handleNewHeader_sound handled sound
    · cases happens
  | headers page =>
    rw [ChainEvent.next] at happens
    split at happens
    · cases happens
    · next other applied =>
      cases happens
      obtain ⟨calls, run⟩ := validateAndApplyHeaders_run applied other
      exact run.invariant (P := fun w => w.chain.Sound) sound fun _ _ _ kept step => step.sound kept
  | synced =>
    obtain ⟨count, _, happens⟩ := Outcome.bind_eq_ok.mp happens
    obtain ⟨chain, built, happens⟩ := Outcome.bind_eq_ok.mp happens
    cases happens
    exact generateTopWorkChainHashset_sound built sound.wellFormed
  | applied batch => exact markAsDownloaded_sound happens sound

end Bitlens

import Bitlens.ApplicationOrder
import Bitlens.Lib.Schedule

namespace Bitlens
open Lib

/-- The set of main-chain hashes is that of the path from the top; the heights in the other index may
be wrong behind a fork. -/
def Chain.TracksMain (c : Chain) : Prop :=
  ∀ hash, hash ∈ c.mostWorkChain ↔ c.OnMain hash

/-- What a call that makes a header the new top does besides: each queued block comes once, and the
set of main-chain hashes follows. -/
structure Switched (s t : Watcher) (new : BlockHeaderWithNumber) (entries : List QueueEntry) (m : Hash) : Prop extends
    NewTop s t new entries m where
  nodup : (entries.map (·.hash)).Nodup
  index : s.chainman.chain.TracksMain → t.chainman.chain.TracksMain

variable {p : Profile} {s t : Watcher} {header : BlockHeaderOwned} {new : BlockHeaderWithNumber} {c : Chain}

namespace Chain

theorem mem_updateMostWorkChain_iff {result : HeaderApplicationResult} {hash : Hash} :
    hash ∈ (c.updateMostWorkChain result).mostWorkChain ↔
      hash ∈ c.mostWorkChain ∧ hash ∉ result.removedBlocks.map Prod.fst ∨ hash ∈ result.addedBlocks.map Prod.fst := by
  have erased : ∀ (removed : List (Hash × Nat)) (set : Finset Hash),
      hash ∈ removed.foldl (fun set entry => set.erase entry.1) set ↔ hash ∈ set ∧ hash ∉ removed.map Prod.fst := by
    intro removed
    induction removed with
    | nil => simp
    | cons entry removed ih =>
      intro set
      rw [List.foldl_cons, ih]
      simp only [Finset.mem_erase, List.map_cons, List.mem_cons]
      tauto
  have inserted : ∀ (added : List (Hash × Nat)) (set : Finset Hash),
      hash ∈ added.foldl (fun set entry => insert entry.1 set) set ↔ hash ∈ set ∨ hash ∈ added.map Prod.fst := by
    intro added
    induction added with
    | nil => simp
    | cons entry added ih =>
      intro set
      rw [List.foldl_cons, ih]
      simp only [Finset.mem_insert, List.map_cons, List.mem_cons]
      tauto
  rw [updateMostWorkChain, inserted, erased]

end Chain

/-- The fork that a heavier header makes, in a call that returns. -/
theorem fork_of_heavy {q : BlockHeaderWithNumber} (rooted : s.chainman.chain.Rooted)
    (attached : p = .release → s.chainman.chain.Attached header)
    (atParent : s.chainman.chain.knownHeaders header.parent = some q)
    (accepted : s.chainman.chain.newHeader p header = .ok (some new))
    (heavy : s.chainman.chain.topHeader.totalWork ≤ new.totalWork)
    (handled : handleNewHeader p header s = (t, .ok ())) :
    ∃ w result m, s.chainman.validateAndApplyHeaderInner p header false = (w, .ok (some result)) ∧
      w.chain.mostWorkChain = s.chainman.chain.mostWorkChain ∧
        ForkResult (s.chainman.learn new).chain.parentOf s.chainman.chain.topHeader.header.hash new.header.hash
          result m := by
  obtain ⟨grows, same⟩ := Chainman.extends_of_newHeader accepted
  obtain ⟨unknown, q', _, atParent', _, _, _, shape⟩ := Chain.newHeader_eq_ok_some.mp accepted
  cases atParent.symm.trans atParent'
  have step : new.number = q.number + 1 := by rw [shape]
  have inner := Chainman.validateAndApplyHeaderInner_of_heavy accepted heavy
  by_cases atTop : new.header.parent = s.chainman.chain.topHeader.header.hash
  · exact ⟨_, _, _, inner.trans (Chainman.applyNewTop_of_extension atTop), rfl,
      grows.forkResult_of_extension rooted atTop⟩
  · have level : q.number ≤ s.chainman.chain.topHeader.number := by
      cases p with
      | release => exact (attached rfl q atParent).resolve_left (by rw [← same]; exact atTop)
      | dev =>
        by_contra above
        rw [handleNewHeader, unknown, atParent, if_neg (by simp), if_neg (by simp), inner,
          grows.applyNewTop_fault rooted step atTop (Nat.lt_of_not_le above)] at handled
        cases handled
    obtain ⟨_, _, _, m, forked, _, fork⟩ :=
      grows.applyNewTop_of_fork (p := p) rooted (by rw [same]; exact atParent) step atTop level
    exact ⟨_, _, m, inner.trans forked, rfl, fork⟩

/-- A call that returns has done nothing, or it has stored the header, below the old top or as the new one. -/
theorem handleNewHeader_switched (rooted : s.chainman.chain.Rooted)
    (attached : ∀ new, s.chainman.chain.newHeader p header = .ok (some new) →
      s.chainman.chain.topHeader.totalWork ≤ new.totalWork → p = .release → s.chainman.chain.Attached header)
    (handled : handleNewHeader p header s = (t, .ok ())) :
    t = s ∨ ∃ new, s.chainman.chain.newHeader p header = .ok (some new) ∧
      (t = ⟨s.chainman.learn new, s.queue⟩ ∨ ∃ entries m, Switched s t new entries m) := by
  rcases handleNewHeader_spec rooted attached handled with same | ⟨new, accepted, stored | ⟨heavy, entries, m, top⟩⟩
  · exact Or.inl same
  · exact Or.inr ⟨new, accepted, Or.inl stored⟩
  obtain ⟨grows, same⟩ := Chainman.extends_of_newHeader accepted
  obtain ⟨unknown, q, _, atParent, _⟩ := Chain.newHeader_eq_ok_some.mp accepted
  obtain ⟨w, result, k, applied, set, fork⟩ :=
    fork_of_heavy rooted (attached new accepted heavy) atParent accepted heavy handled
  have apart : new.header.hash ≠ k := fun here => grows.notOnMain rooted (here ▸ fork.common.left)
  have lists : header.hash ∈ result.addedBlocks.map Prod.fst :=
    same ▸ (fork.added _).mpr ⟨.refl _, fork.common.right, apart⟩
  rw [handleNewHeader_of_applied unknown atParent applied] at handled
  split at handled
  · next listed entriesListed =>
    have names := entriesFor_hashes (fun block single => by simpa [single, eq_comm] using lists) entriesListed
    have known := top.known
    have first := top.top
    have queue := top.queue
    cases handled
    obtain rfl := List.append_cancel_left queue
    refine Or.inr ⟨new, accepted, Or.inr ⟨listed, m, ⟨top, names ▸ fork.nodup, fun tracks hash => ?_⟩⟩⟩
    have learned := (grows.learn_rooted rooted).1
    have parents : (w.chain.updateMostWorkChain result).parentOf = (s.chainman.learn new).chain.parentOf := by
      funext hash
      simp only [Chain.parentOf, ← known]
    have path : (w.chain.updateMostWorkChain result).OnMain hash ↔
        Descends (s.chainman.learn new).chain.parentOf new.header.hash hash := by
      rw [Chain.OnMain, parents, show (w.chain.updateMostWorkChain result).topHeader = new from first]
    rw [Chain.mem_updateMostWorkChain_iff, set, tracks, path, fork.removed, fork.added,
      fork.common.exchange learned.graded learned.known_top]
    rw [Chain.OnMain, ← grows.descends_iff rooted rooted.known_top]
  · cases handled

end Bitlens

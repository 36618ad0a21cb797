import Bitlens.MainChain
import Bitlens.Keepup

namespace Bitlens
open Lib

namespace Chain

variable {c : Chain} {p : Profile}

/-- What a header must satisfy to be stored, and the record stored for it. -/
theorem newHeader_eq_some {header : BlockHeaderOwned} {new : BlockHeaderWithNumber}
    (result : c.newHeader p header = .ok (some new)) :
    c.knownHeaders header.hash = none ∧ ∃ parent work, c.knownHeaders header.parent = some parent ∧
      c.getNextBitsRequired p parent = .ok header.bits ∧ getWork header.bits = .ok work ∧
      u256Add parent.totalWork work = .ok new.totalWork ∧
      new = ⟨header, parent.number + 1, false, new.totalWork, none⟩ := by
  unfold newHeader at result
  split at result
  · cases result
  · next unknown =>
    refine ⟨by simpa using unknown, ?_⟩
    obtain ⟨parent, atParent, afterParent⟩ := Outcome.bind_eq_ok.mp result
    obtain ⟨bits, required, afterBits⟩ := Outcome.bind_eq_ok.mp afterParent
    obtain ⟨_, agree, afterCheck⟩ := Outcome.bind_eq_ok.mp afterBits
    obtain ⟨work, ofBits, afterWork⟩ := Outcome.bind_eq_ok.mp afterCheck
    obtain ⟨total, sum, last⟩ := Outcome.bind_eq_ok.mp afterWork
    have same : bits = header.bits := by
      by_contra different
      simp [Outcome.ensure, different] at agree
    have shape := Option.some.inj (Outcome.ok.inj last)
    subst same
    subst shape
    exact ⟨parent, work, Outcome.orErr_eq_ok.mp atParent, required, ofBits, sum, rfl⟩

end Chain

namespace Chainman

variable {w : Chainman} {new : BlockHeaderWithNumber} {p : Profile}

/-- A record that `newHeader` accepted for this chain: fresh, on a known parent. -/
structure Extends (c : Chain) (new : BlockHeaderWithNumber) : Prop where
  fresh : c.knownHeaders new.header.hash = none
  parent : ∃ q, c.knownHeaders new.header.parent = some q ∧ new.number = q.number + 1

theorem extends_of_newHeader {c : Chain} {header : BlockHeaderOwned} (result : c.newHeader p header = .ok (some new)) :
    Extends c new ∧ new.header = header := by
  obtain ⟨unknown, parent, _, atParent, _, _, _, shape⟩ := Chain.newHeader_eq_some result
  rw [shape]
  exact ⟨⟨unknown, parent, atParent, rfl⟩, rfl⟩

theorem Extends.parent_ne {c : Chain} (grows : Extends c new) : new.header.parent ≠ new.header.hash := by
  obtain ⟨q, atParent, _⟩ := grows.parent
  intro same
  rw [same, grows.fresh] at atParent
  cases atParent

theorem learn_known_of_ne {hash : Hash} (other : hash ≠ new.header.hash) :
    (w.learn new).chain.knownHeaders hash = w.chain.knownHeaders hash :=
  mapInsert_of_ne other

theorem learn_known_self : (w.learn new).chain.knownHeaders new.header.hash = some new :=
  mapInsert_self _ _ _

theorem Extends.ne_of_known (grows : Extends w.chain new) {hash : Hash} (known : w.chain.Known hash) :
    hash ≠ new.header.hash := by
  rintro rfl
  simp [Chain.Known, grows.fresh] at known

theorem Extends.learn_wellFormed (grows : Extends w.chain new) (wf : w.chain.WellFormed) :
    (w.learn new).chain.WellFormed := by
  have keep : ∀ hash b, w.chain.knownHeaders hash = some b → (w.learn new).chain.knownHeaders hash = some b := by
    intro hash b stored
    rw [learn_known_of_ne (grows.ne_of_known (by simp [Chain.Known, stored])), stored]
  refine ⟨?_, ?_, ?_⟩
  · intro hash b stored
    by_cases same : hash = new.header.hash
    · subst same
      rw [learn_known_self] at stored
      cases Option.some.inj stored
      rfl
    · rw [learn_known_of_ne same] at stored
      exact wf.keyed _ _ stored
  · intro hash b stored positive
    by_cases same : hash = new.header.hash
    · subst same
      rw [learn_known_self] at stored
      cases Option.some.inj stored
      obtain ⟨q, atParent, step⟩ := grows.parent
      exact ⟨q, keep _ _ atParent, step⟩
    · rw [learn_known_of_ne same] at stored
      obtain ⟨q, atParent, step⟩ := wf.parents _ _ stored positive
      exact ⟨q, keep _ _ atParent, step⟩
  · obtain ⟨stored, atTop, header, number⟩ := wf.top
    exact ⟨stored, keep _ _ atTop, header, number⟩

theorem Extends.learn_parentOf (grows : Extends w.chain new) {hash : Hash} (known : w.chain.Known hash) :
    (w.learn new).chain.parentOf hash = w.chain.parentOf hash := by
  simp only [Chain.parentOf, learn_known_of_ne (grows.ne_of_known known)]

theorem Extends.learn_heightOf (grows : Extends w.chain new) {hash : Hash} (known : w.chain.Known hash) :
    (w.learn new).chain.heightOf hash = w.chain.heightOf hash := by
  simp only [Chain.heightOf, learn_known_of_ne (grows.ne_of_known known)]

theorem Extends.learn_parentOf_new (grows : Extends w.chain new) :
    (w.learn new).chain.parentOf new.header.hash = some new.header.parent := by
  obtain ⟨q, _, step⟩ := grows.parent
  rw [Chain.parentOf_of_known learn_known_self, if_neg (by omega)]

theorem Extends.learn_heightOf_new (_grows : Extends w.chain new) :
    (w.learn new).chain.heightOf new.header.hash = new.number :=
  Chain.heightOf_of_known learn_known_self

/-- A stored header changes no path between headers that were known before it. -/
theorem Extends.learn_descends (grows : Extends w.chain new) (wf : w.chain.WellFormed) {x y : Hash}
    (known : w.chain.Known x) :
    Descends (w.learn new).chain.parentOf x y ↔ Descends w.chain.parentOf x y :=
  descends_congr (fun _ _ => wf.known_parent) (fun _ => grows.learn_parentOf) known

theorem Extends.learn_onMain (grows : Extends w.chain new) (wf : w.chain.WellFormed) {hash : Hash} :
    (w.learn new).chain.OnMain hash ↔ w.chain.OnMain hash :=
  grows.learn_descends wf wf.top.known

theorem Extends.setTop_wellFormed (grows : Extends w.chain new) (wf : w.chain.WellFormed) :
    ((w.learn new).setTop new).chain.WellFormed := by
  have learned := grows.learn_wellFormed wf
  exact ⟨learned.keyed, learned.parents, ⟨new, learn_known_self, rfl, rfl⟩⟩

/-- The new main path is the new header and the path from its parent. -/
theorem Extends.setTop_onMain (grows : Extends w.chain new) (wf : w.chain.WellFormed) {hash : Hash} :
    ((w.learn new).setTop new).chain.OnMain hash ↔
      hash = new.header.hash ∨ Descends w.chain.parentOf new.header.parent hash := by
  obtain ⟨q, atParent, _⟩ := grows.parent
  have known : w.chain.Known new.header.parent := by simp [Chain.Known, atParent]
  rw [← grows.learn_descends wf known]
  exact descends_iff_of_parent grows.learn_parentOf_new

theorem applyNewTop_knownHeaders (w : Chainman) (new : BlockHeaderWithNumber) :
    (w.applyNewTop p new).1.chain.knownHeaders = w.chain.knownHeaders ∧
      (w.applyNewTop p new).1.inserts = w.inserts := by
  unfold applyNewTop
  split
  · exact ⟨rfl, rfl⟩
  split
  · split <;> exact ⟨rfl, rfl⟩
  · exact ⟨rfl, rfl⟩

/-- The only change to the known headers is one new header, whose insert is
spawned with it. -/
theorem validateAndApplyHeaderInner_knownHeaders (w : Chainman) (header : BlockHeaderOwned) (isHeadersync : Bool) :
    let w' := (w.validateAndApplyHeaderInner p header isHeadersync).1
    (w'.chain.knownHeaders = w.chain.knownHeaders ∧ w'.inserts = w.inserts) ∨
      ∃ new, w.chain.newHeader p header = .ok (some new) ∧
        w'.chain.knownHeaders = (w.learn new).chain.knownHeaders ∧ w'.inserts = w.inserts ++ [new] := by
  unfold validateAndApplyHeaderInner
  cases result : w.chain.newHeader p header with
  | err => exact Or.inl ⟨rfl, rfl⟩
  | fault => exact Or.inl ⟨rfl, rfl⟩
  | ok found =>
    cases found with
    | none => exact Or.inl ⟨rfl, rfl⟩
    | some new =>
      refine Or.inr ⟨new, rfl, ?_⟩
      dsimp only
      split
      · exact ⟨rfl, rfl⟩
      split
      · exact ⟨rfl, rfl⟩
      · exact applyNewTop_knownHeaders (w.learn new) new

end Chainman

end Bitlens

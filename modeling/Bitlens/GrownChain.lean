import Bitlens.TopHeader
import Bitlens.Target

namespace Bitlens
open Lib

/-- A header tree with genesis as its only root, and a top in it. -/
structure Chain.Rooted (c : Chain) : Prop where
  keyed : ∀ hash b, c.knownHeaders hash = some b → b.header.hash = hash
  parents : ∀ hash b, c.knownHeaders hash = some b → b.number ≠ 0 →
    ∃ q, c.knownHeaders b.header.parent = some q ∧ b.number = q.number + 1
  root : ∀ hash b, c.knownHeaders hash = some b → b.number = 0 → hash = genesisHeader.hash
  top : ∃ stored, c.knownHeaders c.topHeader.header.hash = some stored ∧ stored.number = c.topHeader.number

/-- What a chain keeps that grows from genesis by headers: one root, and targets
within the limit. -/
structure Chain.Grown (c : Chain) : Prop where
  wellFormed : c.WellFormed
  root : ∀ hash b, c.knownHeaders hash = some b → b.number = 0 → hash = genesisHeader.hash
  bounded : ∀ hash b, c.knownHeaders hash = some b → u256FromCompact b.header.bits ≤ powLimit

variable {p : Profile} {w w' : Chainman} {call : BlockHeaderOwned × Bool} {new : BlockHeaderWithNumber}

namespace Chain

variable {c : Chain}

theorem default_wellFormed : Chain.default.WellFormed := by
  refine ⟨?_, ?_, ⟨genesis, rfl, rfl, rfl⟩⟩
  · intro hash b stored
    obtain ⟨same, record⟩ := default_known stored
    rw [same, record]
    rfl
  · intro hash b stored positive
    rw [(default_known stored).2] at positive
    exact absurd rfl positive

theorem default_grown : Chain.default.Grown := by
  refine ⟨default_wellFormed, fun hash b stored _ => (default_known stored).1, fun hash b stored => ?_⟩
  rw [(default_known stored).2]
  decide

theorem Grown.rooted (grown : c.Grown) : c.Rooted := by
  obtain ⟨stored, atTop, _, number⟩ := grown.wellFormed.top
  exact ⟨grown.wellFormed.keyed, grown.wellFormed.parents, grown.root, stored, atTop, number⟩

theorem Rooted.graded (rooted : c.Rooted) : GradedOn c.Known c.parentOf c.heightOf :=
  graded_of_parents rooted.parents

theorem Rooted.known_top (rooted : c.Rooted) : c.Known c.topHeader.header.hash := by
  obtain ⟨stored, atTop, _⟩ := rooted.top
  rw [Known, atTop]
  rfl

theorem Rooted.height_top (rooted : c.Rooted) : c.heightOf c.topHeader.header.hash = c.topHeader.number := by
  obtain ⟨stored, atTop, number⟩ := rooted.top
  rw [heightOf_of_known atTop, number]

/-- The only known header at height zero is genesis. -/
theorem Rooted.root_eq (rooted : c.Rooted) {hash : Hash} (known : c.Known hash) (bottom : c.heightOf hash = 0) :
    hash = genesisHeader.hash := by
  obtain ⟨b, stored⟩ := Option.isSome_iff_exists.mp known
  exact rooted.root hash b stored (by rw [← heightOf_of_known stored, bottom])

/-- The header found by walking down from a stored one. -/
theorem WellFormed.getAncestorLoop (wf : c.WellFormed) (height fuel : Nat) (b : BlockHeaderWithNumber)
    (holds : c.Holds b) (below : height ≤ b.number) (enough : b.number < fuel) :
    ∃ a, c.getAncestorLoop height fuel b = .ok (some a) ∧ c.Holds a ∧ a.number = height ∧
      Descends c.parentOf b.header.hash a.header.hash := by
  induction fuel generalizing b with
  | zero => omega
  | succ fuel ih =>
    rw [Chain.getAncestorLoop]
    by_cases above : b.number > height
    · obtain ⟨q, atParent, sameHash, holdsQ, step⟩ := wf.parent_holds holds (by omega)
      have edge : c.parentOf b.header.hash = some q.header.hash := by
        rw [holds.parentOf, if_neg (by omega), sameHash]
      obtain ⟨a, found, holdsA, level, path⟩ := ih q holdsQ (by omega) (by omega)
      rw [if_pos above, atParent]
      exact ⟨a, found, holdsA, level, .head edge path⟩
    · rw [if_neg above]
      exact ⟨b, rfl, holds, by omega, .refl _⟩

theorem WellFormed.getAncestor (wf : c.WellFormed) {b : BlockHeaderWithNumber} (holds : c.Holds b) {height : Nat}
    (below : height ≤ b.number) :
    ∃ a, c.getAncestor b height = .ok (some a) ∧ c.Holds a ∧ a.number = height ∧
      Descends c.parentOf b.header.hash a.header.hash :=
  wf.getAncestorLoop height (b.number + 1) b holds below (Nat.lt_succ_self _)

/-- The last header of a period is not older than its first one. -/
def PeriodOrdered (c : Chain) (last : BlockHeaderWithNumber) : Prop :=
  (last.number + 1) % difficultyAdjustmentInterval = 0 →
    ∀ first, c.getAncestor last (last.number - (difficultyAdjustmentInterval - 1)) = .ok (some first) →
      first.header.timestamp.toNat ≤ last.header.timestamp.toNat

theorem periodStart_le {number : Nat} (last : (number + 1) % difficultyAdjustmentInterval = 0) :
    difficultyAdjustmentInterval - 1 ≤ number := by
  have interval : difficultyAdjustmentInterval = 2016 := rfl
  rw [interval] at last ⊢
  omega

/-- Outside the end of a period the bits stay. -/
theorem getNextBitsRequired_of_inside {b : BlockHeaderWithNumber}
    (inside : (b.number + 1) % difficultyAdjustmentInterval ≠ 0) : c.getNextBitsRequired p b = .ok b.header.bits := by
  rw [getNextBitsRequired, if_pos inside]

/-- At the end of a period the retarget rule is applied to its first and last header. -/
theorem WellFormed.getNextBitsRequired_of_end (wf : c.WellFormed) {b : BlockHeaderWithNumber} (holds : c.Holds b)
    (last : (b.number + 1) % difficultyAdjustmentInterval = 0) :
    ∃ first, c.getAncestor b (b.number - (difficultyAdjustmentInterval - 1)) = .ok (some first) ∧ c.Holds first ∧
      first.number + difficultyAdjustmentInterval = b.number + 1 ∧
      Descends c.parentOf b.header.hash first.header.hash ∧
      c.getNextBitsRequired p b =
        calculateNextWorkRequired p b.header.timestamp first.header.timestamp b.header.bits := by
  have start := periodStart_le last
  obtain ⟨first, found, holdsFirst, level, path⟩ := wf.getAncestor holds (Nat.sub_le b.number _)
  have interval : difficultyAdjustmentInterval = 2016 := rfl
  refine ⟨first, found, holdsFirst, by omega, path, ?_⟩
  rw [getNextBitsRequired, if_neg (not_not.mpr last), Profile.sub_of_le start, Outcome.ok_bind, found, Outcome.ok_bind,
    Outcome.unwrap_some, Outcome.ok_bind]

theorem sub_dev_eq_fault {width a b : Nat} (less : a < b) : Profile.dev.sub width a b = .fault := by
  rw [Profile.sub, if_neg (by omega)]
  rfl

/-- With overflow checks the required bits are found exactly when the period is ordered. -/
theorem Grown.getNextBitsRequired_dev (grown : c.Grown) {hash : Hash} {b : BlockHeaderWithNumber}
    (stored : c.knownHeaders hash = some b) :
    (c.PeriodOrdered b ∧ ∃ bits, c.getNextBitsRequired .dev b = .ok bits) ∨
      (¬ c.PeriodOrdered b ∧ c.getNextBitsRequired .dev b = .fault) := by
  by_cases inside : (b.number + 1) % difficultyAdjustmentInterval ≠ 0
  · exact Or.inl ⟨fun last => absurd last inside, _, getNextBitsRequired_of_inside inside⟩
  have last := not_not.mp inside
  obtain ⟨first, found, _, _, _, rule⟩ :=
    grown.wellFormed.getNextBitsRequired_of_end (grown.wellFormed.holds_of_known stored) last
  by_cases ordered : first.header.timestamp.toNat ≤ b.header.timestamp.toNat
  · obtain ⟨next, result, _⟩ :=
      calculateNextWorkRequired_ok (Profile.sub_of_le ordered) (grown.bounded hash b stored)
    refine Or.inl ⟨fun _ other found' => ?_, next, rule.trans result⟩
    cases found.symm.trans found'
    exact ordered
  · refine Or.inr ⟨fun kept => ordered (kept last first found), ?_⟩
    rw [rule, calculateNextWorkRequired, sub_dev_eq_fault (by omega)]
    rfl

theorem Grown.required_bounded (grown : c.Grown) {hash : Hash} {b : BlockHeaderWithNumber} {bits : UInt32}
    (stored : c.knownHeaders hash = some b) (required : c.getNextBitsRequired p b = .ok bits) :
    u256FromCompact bits ≤ powLimit := by
  by_cases inside : (b.number + 1) % difficultyAdjustmentInterval ≠ 0
  · rw [getNextBitsRequired_of_inside inside] at required
    cases required
    exact grown.bounded hash b stored
  · obtain ⟨first, _, _, _, _, rule⟩ :=
      grown.wellFormed.getNextBitsRequired_of_end (p := p) (grown.wellFormed.holds_of_known stored) (not_not.mp inside)
    rw [rule] at required
    obtain ⟨elapsed, difference, _⟩ := Outcome.bind_eq_ok.mp required
    obtain ⟨next, result, bounded, _⟩ := calculateNextWorkRequired_ok difference (grown.bounded hash b stored)
    cases result.symm.trans required
    exact bounded

end Chain

/-- A record in the tree after an accepted header is that header's or was there before. -/
theorem Chainman.learn_known_cases {hash : Hash} {b : BlockHeaderWithNumber}
    (stored : (w.learn new).chain.knownHeaders hash = some b) :
    (hash = new.header.hash ∧ b = new) ∨ w.chain.knownHeaders hash = some b := by
  by_cases same : hash = new.header.hash
  · rw [same, learn_known_self] at stored
    exact Or.inl ⟨same, (Option.some.inj stored).symm⟩
  · rw [learn_known_of_ne same] at stored
    exact Or.inr stored

theorem Chainman.Extends.learn_rooted (grows : Chainman.Extends w.chain new) (rooted : w.chain.Rooted) :
    (w.learn new).chain.Rooted ∧ ((w.learn new).setTop new).chain.Rooted := by
  have keep : ∀ hash b, w.chain.knownHeaders hash = some b → (w.learn new).chain.knownHeaders hash = some b := by
    intro hash b stored
    have known : w.chain.Known hash := by rw [Chain.Known, stored]; rfl
    rw [Chainman.learn_known_of_ne (grows.ne_of_known known), stored]
  obtain ⟨q, atParent, step⟩ := grows.parent
  have keyed : ∀ hash b, (w.learn new).chain.knownHeaders hash = some b → b.header.hash = hash := by
    intro hash b stored
    rcases Chainman.learn_known_cases stored with ⟨atNew, same⟩ | before
    · rw [atNew, same]
    · exact rooted.keyed hash b before
  have parents : ∀ hash b, (w.learn new).chain.knownHeaders hash = some b → b.number ≠ 0 →
      ∃ q, (w.learn new).chain.knownHeaders b.header.parent = some q ∧ b.number = q.number + 1 := by
    intro hash b stored positive
    rcases Chainman.learn_known_cases stored with ⟨_, same⟩ | before
    · rw [same]
      exact ⟨q, keep _ q atParent, step⟩
    · obtain ⟨r, above, level⟩ := rooted.parents hash b before positive
      exact ⟨r, keep _ r above, level⟩
  have root : ∀ hash b, (w.learn new).chain.knownHeaders hash = some b → b.number = 0 → hash = genesisHeader.hash := by
    intro hash b stored zero
    rcases Chainman.learn_known_cases stored with ⟨_, same⟩ | before
    · rw [same] at zero
      omega
    · exact rooted.root hash b before zero
  obtain ⟨stored, atTop, number⟩ := rooted.top
  exact ⟨⟨keyed, parents, root, stored, keep _ stored atTop, number⟩,
    keyed, parents, root, new, Chainman.learn_known_self, rfl⟩

/-- A stored header changes no path between headers that were known before it. -/
theorem Chainman.Extends.descends_iff (grows : Chainman.Extends w.chain new) (rooted : w.chain.Rooted) {x y : Hash}
    (known : w.chain.Known x) : Descends (w.learn new).chain.parentOf x y ↔ Descends w.chain.parentOf x y :=
  descends_congr (fun _ _ member edge => (rooted.graded _ _ member edge).1) (fun _ => grows.learn_parentOf) known

theorem Chain.Grown.learn (grown : w.chain.Grown) {header : BlockHeaderOwned}
    (accepted : w.chain.newHeader p header = .ok (some new)) : (w.learn new).chain.Grown := by
  obtain ⟨grows, _⟩ := Chainman.extends_of_newHeader accepted
  obtain ⟨_, parent, work, atParent, required, _, _, shape⟩ := Chain.newHeader_eq_ok_some.mp accepted
  refine ⟨grows.learn_wellFormed grown.wellFormed, fun hash b stored zero => ?_, fun hash b stored => ?_⟩
  · rcases Chainman.learn_known_cases stored with ⟨_, same⟩ | before
    · rw [same, shape] at zero
      exact absurd zero (Nat.succ_ne_zero _)
    · exact grown.root hash b before zero
  · rcases Chainman.learn_known_cases stored with ⟨_, same⟩ | before
    · rw [same, shape]
      exact grown.required_bounded atParent required
    · exact grown.bounded hash b before

theorem HeaderCall.rooted (step : HeaderCall p w call w') (rooted : w.chain.Rooted) : w'.chain.Rooted := by
  rcases step.cases with ⟨_, same⟩ | ⟨new, accepted, ⟨_, same⟩ | ⟨_, same⟩⟩
  · rw [same]
    exact rooted
  · rw [same]
    exact ((Chainman.extends_of_newHeader accepted).1.learn_rooted rooted).1
  · rw [same]
    exact ((Chainman.extends_of_newHeader accepted).1.learn_rooted rooted).2

/-- The step lemma. -/
theorem HeaderCall.grown (step : HeaderCall p w call w') (grown : w.chain.Grown) : w'.chain.Grown := by
  have wf := step.wellFormed grown.wellFormed
  rcases step.cases with ⟨_, same⟩ | ⟨new, accepted, ⟨_, same⟩ | ⟨_, same⟩⟩
  · rw [same]
    exact grown
  · rw [same]
    exact grown.learn accepted
  · rw [same] at wf ⊢
    exact ⟨wf, (grown.learn accepted).root, (grown.learn accepted).bounded⟩

/-- The chain manager of a new process. -/
def startChainman : Chainman := ⟨Chain.default, 0, []⟩

end Bitlens

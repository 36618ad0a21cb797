import Bitlens.HeaderOrigin

namespace Bitlens
open Lib

variable {p : Profile} {w w' : Chainman} {call : BlockHeaderOwned × Bool} {new : BlockHeaderWithNumber}

namespace Chain

/-- The record follows from the one of its parent by the rules for a new header. -/
def Follows (p : Profile) (c : Chain) (b : BlockHeaderWithNumber) : Prop :=
  ∃ parent work, c.knownHeaders b.header.parent = some parent ∧ c.getNextBitsRequired p parent = .ok b.header.bits ∧
    getWork b.header.bits = .ok work ∧ parent.totalWork + work < 2 ^ 256 ∧ b.number = parent.number + 1 ∧
      b.totalWork = parent.totalWork + work

/-- Every header above genesis follows from its parent, and the top has the most work. -/
structure Valid (p : Profile) (c : Chain) : Prop where
  grown : c.Grown
  genesis : ∃ g, c.knownHeaders genesisHeader.hash = some g ∧ g.number = 0 ∧ g.totalWork = Bitlens.genesis.totalWork
  follows : ∀ hash b, c.knownHeaders hash = some b → b.number ≠ 0 → c.Follows p b
  mostWork : c.MostWork
  topWork : ∀ b, c.knownHeaders c.topHeader.header.hash = some b → b.totalWork = c.topHeader.totalWork

/-- A hash stands for one header in both trees. -/
def Compatible (c d : Chain) : Prop :=
  ∀ hash b b', c.knownHeaders hash = some b → d.knownHeaders hash = some b' → b.header.columns = b'.header.columns

variable {c d : Chain} {hash : Hash} {b b' : BlockHeaderWithNumber}

theorem Compatible.symm (compatible : c.Compatible d) : d.Compatible c :=
  fun hash b b' stored stored' => (compatible hash b' b stored' stored).symm

theorem parent_eq (same : b.header.columns = b'.header.columns) : b.header.parent = b'.header.parent := by
  have := congrArg BlockHeaderOwned.parent same
  exact this

theorem bits_eq (same : b.header.columns = b'.header.columns) : b.header.bits = b'.header.bits := by
  have := congrArg BlockHeaderOwned.bits same
  exact this

theorem timestamp_eq (same : b.header.columns = b'.header.columns) : b.header.timestamp = b'.header.timestamp := by
  have := congrArg BlockHeaderOwned.timestamp same
  exact this

theorem Valid.number_eq_zero (valid : c.Valid p) (stored : c.knownHeaders hash = some b) :
    b.number = 0 ↔ hash = genesisHeader.hash := by
  refine ⟨valid.grown.root hash b stored, fun atGenesis => ?_⟩
  obtain ⟨g, found, zero, _⟩ := valid.genesis
  rw [atGenesis] at stored
  cases found.symm.trans stored
  exact zero

/-- In two valid trees a header has the same height and the same total work. -/
theorem Valid.agree (validC : c.Valid p) (validD : d.Valid p) (compatible : c.Compatible d)
    (stored : c.knownHeaders hash = some b) (stored' : d.knownHeaders hash = some b') :
    b.number = b'.number ∧ b.totalWork = b'.totalWork := by
  induction level : b.number using Nat.strong_induction_on generalizing hash b b' with
  | _ n ih =>
    by_cases bottom : hash = genesisHeader.hash
    · obtain ⟨g, found, zero, total⟩ := validC.genesis
      obtain ⟨g', found', zero', total'⟩ := validD.genesis
      rw [bottom] at stored stored'
      cases found.symm.trans stored
      cases found'.symm.trans stored'
      exact ⟨level.symm.trans (zero.trans zero'.symm), total.trans total'.symm⟩
    · have same := compatible hash b b' stored stored'
      obtain ⟨q, work, above, _, ofBits, _, step, sum⟩ :=
        validC.follows hash b stored (mt (validC.number_eq_zero stored).mp bottom)
      obtain ⟨q', work', above', _, ofBits', _, step', sum'⟩ :=
        validD.follows hash b' stored' (mt (validD.number_eq_zero stored').mp bottom)
      rw [← parent_eq same] at above'
      rw [← bits_eq same] at ofBits'
      cases ofBits.symm.trans ofBits'
      obtain ⟨levels, totals⟩ := ih q.number (by omega) above above' rfl
      exact ⟨by omega, by omega⟩

/-- Walking down from one header finds the same header in both trees. -/
theorem getAncestorLoop_agree (validC : c.Valid p) (validD : d.Valid p) (compatible : c.Compatible d) {height : Nat}
    {fuel : Nat} {a : BlockHeaderWithNumber} (stored : c.knownHeaders hash = some b)
    (stored' : d.knownHeaders hash = some b') (found : c.getAncestorLoop height fuel b = .ok (some a)) :
    ∃ a', d.getAncestorLoop height fuel b' = .ok (some a') ∧ a.header.columns = a'.header.columns := by
  induction fuel generalizing hash b b' with
  | zero => cases found
  | succ fuel ih =>
    have same := compatible hash b b' stored stored'
    obtain ⟨level, _⟩ := validC.agree validD compatible stored stored'
    rw [getAncestorLoop] at found ⊢
    rw [← level]
    by_cases above : b.number > height
    · rw [if_pos above] at found ⊢
      obtain ⟨q, _, atParent, _⟩ := validC.follows hash b stored (by omega)
      obtain ⟨q', _, atParent', _⟩ := validD.follows hash b' stored' (by omega)
      rw [atParent] at found
      rw [atParent']
      exact ih atParent (by rw [parent_eq same]; exact atParent') found
    · rw [if_neg above] at found ⊢
      cases found
      exact ⟨b', rfl, same⟩

/-- Both trees require the same bits behind a header. -/
theorem Valid.getNextBitsRequired_eq (validC : c.Valid p) (validD : d.Valid p) (compatible : c.Compatible d)
    (stored : c.knownHeaders hash = some b) (stored' : d.knownHeaders hash = some b') :
    c.getNextBitsRequired p b = d.getNextBitsRequired p b' := by
  have same := compatible hash b b' stored stored'
  obtain ⟨level, _⟩ := validC.agree validD compatible stored stored'
  by_cases inside : (b.number + 1) % difficultyAdjustmentInterval ≠ 0
  · rw [getNextBitsRequired_of_inside inside, getNextBitsRequired_of_inside (level ▸ inside), bits_eq same]
  · have wfC := validC.grown.wellFormed
    have wfD := validD.grown.wellFormed
    obtain ⟨first, found, _, _, _, rule⟩ :=
      wfC.getNextBitsRequired_of_end (p := p) (wfC.holds_of_known stored) (not_not.mp inside)
    obtain ⟨first', found', _, _, _, rule'⟩ :=
      wfD.getNextBitsRequired_of_end (p := p) (wfD.holds_of_known stored') (level ▸ not_not.mp inside)
    obtain ⟨other, atOther, sameFirst⟩ := getAncestorLoop_agree validC validD compatible stored stored' found
    rw [level] at atOther
    cases Option.some.inj (Outcome.ok.inj (atOther.symm.trans found'))
    rw [rule, rule', timestamp_eq same, timestamp_eq sameFirst, bits_eq same]

/-- What a chain that knows more requires behind a known header. -/
theorem getAncestorLoop_mono (keeps : ∀ hash b, c.knownHeaders hash = some b → d.knownHeaders hash = some b)
    {height fuel : Nat} {a : BlockHeaderWithNumber} (found : c.getAncestorLoop height fuel b = .ok (some a)) :
    d.getAncestorLoop height fuel b = .ok (some a) := by
  induction fuel generalizing b with
  | zero => cases found
  | succ fuel ih =>
    rw [getAncestorLoop] at found ⊢
    split at found
    · next above =>
      rw [if_pos above]
      cases atParent : c.knownHeaders b.header.parent with
      | none =>
        rw [atParent] at found
        cases found
      | some q =>
        rw [atParent] at found
        rw [keeps _ _ atParent]
        exact ih found
    · next below =>
      rw [if_neg below]
      exact found

theorem WellFormed.getNextBitsRequired_mono (wf : c.WellFormed) (wf' : d.WellFormed)
    (keeps : ∀ hash b, c.knownHeaders hash = some b → d.knownHeaders hash = some b)
    (stored : c.knownHeaders hash = some b) : d.getNextBitsRequired p b = c.getNextBitsRequired p b := by
  by_cases inside : (b.number + 1) % difficultyAdjustmentInterval ≠ 0
  · rw [getNextBitsRequired_of_inside inside, getNextBitsRequired_of_inside inside]
  · obtain ⟨first, found, _, _, _, rule⟩ :=
      wf.getNextBitsRequired_of_end (p := p) (wf.holds_of_known stored) (not_not.mp inside)
    obtain ⟨first', found', _, _, _, rule'⟩ :=
      wf'.getNextBitsRequired_of_end (p := p) (wf'.holds_of_known (keeps _ _ stored)) (not_not.mp inside)
    cases Option.some.inj (Outcome.ok.inj ((getAncestorLoop_mono keeps found).symm.trans found'))
    rw [rule, rule']

theorem Follows.mono (wf : c.WellFormed) (wf' : d.WellFormed)
    (keeps : ∀ hash b, c.knownHeaders hash = some b → d.knownHeaders hash = some b) (follows : c.Follows p b) :
    d.Follows p b := by
  obtain ⟨parent, work, atParent, required, rest⟩ := follows
  exact ⟨parent, work, keeps _ _ atParent, (wf.getNextBitsRequired_mono wf' keeps atParent).trans required, rest⟩

/-- The index of the main chain has no part in it. -/
theorem Valid.reindexed (valid : c.Valid p) (known : d.knownHeaders = c.knownHeaders)
    (top : d.topHeader = c.topHeader) : d.Valid p := by
  have wf : d.WellFormed := by
    have before := valid.grown.wellFormed
    refine ⟨fun hash b => known ▸ before.keyed hash b, fun hash b => known ▸ before.parents hash b, ?_⟩
    rw [top, Holds, known]
    exact before.top
  refine ⟨⟨wf, fun hash b => known ▸ valid.grown.root hash b, fun hash b => known ▸ valid.grown.bounded hash b⟩, ?_, ?_,
    ?_, ?_⟩
  · rw [known]
    exact valid.genesis
  · intro hash b stored positive
    refine (valid.follows hash b (known ▸ stored) positive).mono valid.grown.wellFormed wf fun hash b => ?_
    rw [known]
    exact id
  · intro hash b stored
    rw [top]
    exact valid.mostWork hash b (known ▸ stored)
  · rw [known, top]
    exact valid.topWork

theorem default_valid : Chain.default.Valid p := by
  refine ⟨default_grown, ⟨Bitlens.genesis, rfl, rfl, rfl⟩, ?_, ?_, ?_⟩
  · intro hash b stored positive
    rw [(default_known stored).2] at positive
    exact absurd rfl positive
  · intro hash b stored
    rw [(default_known stored).2]
    exact le_rfl
  · intro b stored
    rw [(default_known stored).2]
    rfl

end Chain

theorem Chainman.Extends.keeps (grows : Chainman.Extends w.chain new) {hash : Hash} {b : BlockHeaderWithNumber}
    (stored : w.chain.knownHeaders hash = some b) : (w.learn new).chain.knownHeaders hash = some b := by
  have known : w.chain.Known hash := by rw [Chain.Known, stored]; rfl
  rw [Chainman.learn_known_of_ne (grows.ne_of_known known), stored]

/-- The step lemma: a call keeps the tree valid. -/
theorem HeaderCall.valid (step : HeaderCall p w call w') (valid : w.chain.Valid p) : w'.chain.Valid p := by
  have grown := step.grown valid.grown
  have most := step.mostWork valid.mostWork
  rcases step.cases with ⟨_, same⟩ | ⟨new, accepted, outcome⟩
  · rw [same]
    exact valid
  · have grows := (Chainman.extends_of_newHeader accepted).1
    have wf := valid.grown.wellFormed
    have wf' := grows.learn_wellFormed wf
    have keeps : ∀ hash b, w.chain.knownHeaders hash = some b → (w.learn new).chain.knownHeaders hash = some b :=
      fun _ _ => grows.keeps
    obtain ⟨_, parent, work, atParent, required, ofBits, small, shape⟩ := Chain.newHeader_eq_ok_some.mp accepted
    have genesis : ∃ g, (w.learn new).chain.knownHeaders genesisHeader.hash = some g ∧ g.number = 0 ∧
        g.totalWork = genesis.totalWork := by
      obtain ⟨g, found, rest⟩ := valid.genesis
      exact ⟨g, keeps _ _ found, rest⟩
    have follows : ∀ hash b, (w.learn new).chain.knownHeaders hash = some b → b.number ≠ 0 →
        (w.learn new).chain.Follows p b := by
      intro hash b stored positive
      rcases Chainman.learn_known_cases stored with ⟨_, record⟩ | before
      · rw [record, shape]
        refine Chain.Follows.mono wf (shape ▸ wf') (shape ▸ keeps) ?_
        exact ⟨parent, work, atParent, required, ofBits, small, rfl, rfl⟩
      · exact (valid.follows hash b before positive).mono wf wf' keeps
    rcases outcome with ⟨_, same⟩ | ⟨_, same⟩
    · rw [same] at grown most ⊢
      refine ⟨grown, genesis, follows, most, fun b stored => ?_⟩
      obtain ⟨old, atTop, _⟩ := wf.top
      have kept : (w.learn new).chain.knownHeaders w.chain.topHeader.header.hash = some old := keeps _ _ atTop
      cases kept.symm.trans stored
      exact valid.topWork _ atTop
    · rw [same] at grown most ⊢
      refine ⟨grown, genesis, fun hash b stored positive => ?_, most, fun b stored => ?_⟩
      · exact (follows hash b stored positive).mono wf' grown.wellFormed fun _ _ before => before
      have own : (w.learn new).chain.knownHeaders new.header.hash = some new := Chainman.learn_known_self
      cases own.symm.trans stored
      rfl

end Bitlens

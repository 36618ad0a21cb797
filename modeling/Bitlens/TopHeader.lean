import Bitlens.ChainIndex

namespace Bitlens
open Lib

/-- The top header has the most work of all known headers. -/
def Chain.MostWork (c : Chain) : Prop :=
  ∀ hash b, c.knownHeaders hash = some b → b.totalWork ≤ c.topHeader.totalWork

/-- One call of `validate_and_apply_header_inner` that returns, for a header and a mode. -/
def HeaderCall (p : Profile) (w : Chainman) (call : BlockHeaderOwned × Bool) (w' : Chainman) : Prop :=
  ∃ result, w.validateAndApplyHeaderInner p call.1 call.2 = (w', result) ∧ result ≠ .fault

/-- The top header is kept, or the header of the call replaces it with more work. -/
def FirstSeen (w : Chainman) (call : BlockHeaderOwned × Bool) (w' : Chainman) : Prop :=
  w'.chain.topHeader = w.chain.topHeader ∨
    w'.chain.topHeader.header = call.1 ∧ w.chain.topHeader.totalWork < w'.chain.topHeader.totalWork

def FirstSeenCall (p : Profile) (w : Chainman) (call : BlockHeaderOwned × Bool) (w' : Chainman) : Prop :=
  HeaderCall p w call w' ∧ FirstSeen w call w'

/-- A new header that continues its parent does not add up to the work of the top header. -/
def NoTie (p : Profile) (w : Chainman) (call : BlockHeaderOwned × Bool) : Prop :=
  w.chain.knownHeaders call.1.hash = none → ∀ parent work, w.chain.knownHeaders call.1.parent = some parent →
    w.chain.getNextBitsRequired p parent = .ok call.1.bits → getWork call.1.bits = .ok work →
      u256Add parent.totalWork work ≠ .ok w.chain.topHeader.totalWork

variable {p : Profile} {w w' : Chainman} {call : BlockHeaderOwned × Bool} {new : BlockHeaderWithNumber}

theorem u256Add_eq_ok {a b sum : Nat} : u256Add a b = .ok sum ↔ a + b < 2 ^ 256 ∧ a + b = sum := by
  unfold u256Add
  by_cases small : a + b < 2 ^ 256
  · rw [if_pos small, Outcome.ok.injEq]
    exact ⟨fun same => ⟨small, same⟩, fun both => both.2⟩
  · rw [if_neg small]
    constructor
    · intro absent
      cases absent
    · intro both
      exact absurd both.1 small

namespace Chain

/-- A header is accepted exactly on a known parent, with the required bits and a sum of
work below `2 ^ 256`. -/
theorem newHeader_eq_ok_some {c : Chain} {header : BlockHeaderOwned} :
    c.newHeader p header = .ok (some new) ↔ c.knownHeaders header.hash = none ∧ ∃ parent work,
      c.knownHeaders header.parent = some parent ∧ c.getNextBitsRequired p parent = .ok header.bits ∧
        getWork header.bits = .ok work ∧ parent.totalWork + work < 2 ^ 256 ∧
          new = ⟨header, parent.number + 1, false, parent.totalWork + work, none⟩ := by
  constructor
  · intro result
    obtain ⟨unknown, parent, work, atParent, required, ofBits, sum, shape⟩ := newHeader_eq_some result
    obtain ⟨small, total⟩ := u256Add_eq_ok.mp sum
    rw [← total] at shape
    exact ⟨unknown, parent, work, atParent, required, ofBits, small, shape⟩
  · intro ⟨unknown, parent, work, atParent, required, ofBits, small, shape⟩
    have fresh : (c.knownHeaders header.hash).isSome = false := by rw [unknown]; rfl
    rw [newHeader, fresh, if_neg Bool.false_ne_true, atParent, Outcome.orErr_some, Outcome.ok_bind, required,
      Outcome.ok_bind, Outcome.ensure, decide_eq_true rfl, if_pos rfl, Outcome.ok_bind, ofBits, Outcome.ok_bind,
      u256Add_eq_ok.mpr ⟨small, rfl⟩, shape]
    rfl

end Chain

namespace Chainman

theorem applyNewTop_ok {result : Option HeaderApplicationResult} (returns : (w.applyNewTop p new).2 = .ok result) :
    (w.applyNewTop p new).1.chain = { w.chain with topHeader := new } := by
  unfold applyNewTop at returns ⊢
  split
  · rfl
  · next apart =>
    rw [if_neg apart] at returns
    cases fork : w.chain.forkWalk p new (new.number - 1) with
    | ok visited =>
      rw [fork] at returns
      dsimp only at returns ⊢
      cases count : (w.setTop new).chain.calculateDownloadedBlocks with
      | ok count => rfl
      | err =>
        rw [count] at returns
        cases returns
      | fault =>
        rw [count] at returns
        cases returns
    | err =>
      rw [fork] at returns
      cases returns
    | fault =>
      rw [fork] at returns
      cases returns

theorem applyNewTop_ne_err : (w.applyNewTop p new).2 ≠ .err := by
  intro result
  unfold applyNewTop at result
  split at result
  · cases result
  split at result
  · split at result
    · cases result
    · cases result
  · cases result

end Chainman

/-- What a call that returns does to the tree and to its top. -/
theorem HeaderCall.cases (step : HeaderCall p w call w') :
    ((∀ new, w.chain.newHeader p call.1 ≠ .ok (some new)) ∧ w'.chain = w.chain) ∨
      ∃ new, w.chain.newHeader p call.1 = .ok (some new) ∧
        ((new.totalWork < w.chain.topHeader.totalWork ∧ w'.chain = (w.learn new).chain) ∨
          (w.chain.topHeader.totalWork ≤ new.totalWork ∧ w'.chain = ((w.learn new).setTop new).chain)) := by
  obtain ⟨result, step, returns⟩ := step
  unfold Chainman.validateAndApplyHeaderInner at step
  cases checked : w.chain.newHeader p call.1 with
  | err =>
    rw [checked] at step
    cases step
    refine Or.inl ⟨fun new absent => ?_, rfl⟩
    cases absent
  | fault =>
    rw [checked] at step
    cases step
    exact absurd rfl returns
  | ok found =>
    cases found with
    | none =>
      rw [checked] at step
      cases step
      refine Or.inl ⟨fun new same => ?_, rfl⟩
      cases same
    | some new =>
      rw [checked] at step
      dsimp only at step
      refine Or.inr ⟨new, rfl, ?_⟩
      by_cases light : new.totalWork < w.chain.topHeader.totalWork
      · rw [if_pos light] at step
        cases step
        exact Or.inl ⟨light, rfl⟩
      · rw [if_neg light] at step
        refine Or.inr ⟨Nat.le_of_not_lt light, ?_⟩
        cases sync : call.2 with
        | true =>
          rw [sync, if_pos rfl] at step
          cases step
          rfl
        | false =>
          rw [sync, if_neg Bool.false_ne_true] at step
          obtain ⟨state, outcome⟩ := Prod.mk.inj step
          cases result with
          | ok value =>
            rw [← state]
            exact Chainman.applyNewTop_ok outcome
          | err => exact absurd outcome Chainman.applyNewTop_ne_err
          | fault => exact absurd rfl returns

/-- The step lemma: no known header has more work than the top header. -/
theorem HeaderCall.mostWork (step : HeaderCall p w call w') (most : w.chain.MostWork) : w'.chain.MostWork := by
  rcases step.cases with ⟨_, same⟩ | ⟨new, _, outcome⟩
  · rw [same]
    exact most
  · have bound : ∀ hash b, (w.learn new).chain.knownHeaders hash = some b →
        b = new ∨ b.totalWork ≤ w.chain.topHeader.totalWork := by
      intro hash b stored
      by_cases same : hash = new.header.hash
      · rw [same, Chainman.learn_known_self] at stored
        exact Or.inl (Option.some.inj stored).symm
      · rw [Chainman.learn_known_of_ne same] at stored
        exact Or.inr (most hash b stored)
    rcases outcome with ⟨light, same⟩ | ⟨heavy, same⟩
    · rw [same]
      intro hash b stored
      rcases bound hash b stored with equal | below
      · rw [equal]
        exact le_of_lt light
      · exact below
    · rw [same]
      intro hash b stored
      rcases bound hash b stored with equal | below
      · rw [equal]
        exact le_rfl
      · exact le_trans below heavy

theorem HeaderCall.wellFormed (step : HeaderCall p w call w') (wf : w.chain.WellFormed) : w'.chain.WellFormed := by
  rcases step.cases with ⟨_, same⟩ | ⟨new, accepted, ⟨_, same⟩ | ⟨_, same⟩⟩
  · rw [same]
    exact wf
  · rw [same]
    exact (Chainman.extends_of_newHeader accepted).1.learn_wellFormed wf
  · rw [same]
    exact (Chainman.extends_of_newHeader accepted).1.setTop_wellFormed wf

/-- A call follows the first-seen rule exactly when it makes no tie. -/
theorem HeaderCall.firstSeen_iff (step : HeaderCall p w call w') (wf : w.chain.WellFormed) :
    FirstSeen w call w' ↔ NoTie p w call := by
  constructor
  · intro first unknown parent work atParent required ofBits tie
    obtain ⟨small, tie⟩ := u256Add_eq_ok.mp tie
    rcases step.cases with ⟨refused, _⟩ | ⟨new, accepted, outcome⟩
    · exact refused _ (Chain.newHeader_eq_ok_some.mpr ⟨unknown, parent, work, atParent, required, ofBits, small, rfl⟩)
    · obtain ⟨_, parent', work', atParent', _, ofBits', _, shape⟩ := Chain.newHeader_eq_ok_some.mp accepted
      cases atParent.symm.trans atParent'
      cases ofBits.symm.trans ofBits'
      have total : new.totalWork = w.chain.topHeader.totalWork := by rw [shape, tie]
      rcases outcome with ⟨light, _⟩ | ⟨_, same⟩
      · omega
      · rw [FirstSeen, same] at first
        rcases first with kept | ⟨_, more⟩
        · have fresh : w.chain.knownHeaders new.header.hash = none :=
            (Chainman.extends_of_newHeader accepted).1.fresh
          have known := wf.top.known
          rw [← show new = w.chain.topHeader from kept, Chain.Known, fresh] at known
          cases known
        · exact absurd more (by rw [← total]; exact lt_irrefl _)
  · intro noTie
    rcases step.cases with ⟨_, same⟩ | ⟨new, accepted, ⟨_, same⟩ | ⟨heavy, same⟩⟩
    · exact Or.inl (by rw [same])
    · exact Or.inl (by rw [same]; rfl)
    · obtain ⟨unknown, parent, work, atParent, required, ofBits, small, shape⟩ :=
        Chain.newHeader_eq_ok_some.mp accepted
      have total : new.totalWork = parent.totalWork + work := by rw [shape]
      have differ : new.totalWork ≠ w.chain.topHeader.totalWork := fun tie =>
        noTie unknown parent work atParent required ofBits (u256Add_eq_ok.mpr ⟨small, total ▸ tie⟩)
      have header : new.header = call.1 := by rw [shape]
      rw [FirstSeen, same]
      exact Or.inr ⟨header, show w.chain.topHeader.totalWork < new.totalWork by omega⟩

/-- In every run the top header has the most work, and it is always the first one seen
with its work exactly when no call makes a tie. -/
theorem topHeader_of_run {calls : List (BlockHeaderOwned × Bool)} (wf : w.chain.WellFormed) (most : w.chain.MostWork)
    (run : Run (HeaderCall p) w calls w') :
    w'.chain.MostWork ∧ (Run (FirstSeenCall p) w calls w' ↔ Run (Guarded (NoTie p) (HeaderCall p)) w calls w') := by
  constructor
  · exact run.invariant (P := fun s => s.chain.MostWork) most fun _ _ _ kept step => step.mostWork kept
  · clear run
    have known : ∀ {calls s}, Run (HeaderCall p) w calls s → s.chain.WellFormed := fun run =>
      run.invariant (P := fun s => s.chain.WellFormed) wf fun _ _ _ kept step => step.wellFormed kept
    constructor
    · intro run
      induction run with
      | nil => exact .nil
      | snoc previous last ih =>
        have before := known (previous.mono fun _ _ _ step => step.1)
        exact .snoc ih ⟨(last.1.firstSeen_iff before).mp last.2, last.1⟩
    · intro run
      induction run with
      | nil => exact .nil
      | snoc previous last ih =>
        have before := known previous.unguarded
        exact .snoc ih ⟨last.2, (last.2.firstSeen_iff before).mpr last.1⟩

/-! Two headers on a sample chain. -/

theorem headerCall_of_returns (returns : (w.validateAndApplyHeaderInner p call.1 call.2).2 ≠ .fault) :
    HeaderCall p w call (w.validateAndApplyHeaderInner p call.1 call.2).1 :=
  ⟨_, rfl, returns⟩

theorem HeaderCall.unique {u : Chainman} (one : HeaderCall p w call w') (two : HeaderCall p w call u) : w' = u := by
  obtain ⟨result, same, _⟩ := one
  obtain ⟨result', same', _⟩ := two
  exact (Prod.mk.inj (same.symm.trans same')).1

theorem sampleIndexed_wellFormed : sampleIndexed.WellFormed :=
  ⟨sampleChain_wellFormed.keyed, sampleChain_wellFormed.parents, sampleChain_wellFormed.top⟩

theorem sampleIndexed_mostWork : sampleIndexed.MostWork := by
  intro hash b stored
  obtain ⟨_, same⟩ := sampleChain_known stored
  rw [same]
  exact le_rfl

def afterCalls (p : Profile) (w : Chainman) (calls : List (BlockHeaderOwned × Bool)) : Chainman :=
  calls.foldl (fun w call => (w.validateAndApplyHeaderInner p call.1 call.2).1) w

def sampleExtension : List (BlockHeaderOwned × Bool) := [(sampleHeader 2 1, true), (sampleHeader 3 2, false)]

theorem topHeader_of_run_extension :
    Run (FirstSeenCall .dev) sampleWatcher.chainman sampleExtension
      (afterCalls .dev sampleWatcher.chainman sampleExtension) := by
  have run : Run (Guarded (NoTie .dev) (HeaderCall .dev)) sampleWatcher.chainman sampleExtension
      (afterCalls .dev sampleWatcher.chainman sampleExtension) := by
    refine .cons (t := afterCalls .dev sampleWatcher.chainman (sampleExtension.take 1)) ⟨?_, ?_⟩ (.single ⟨?_, ?_⟩)
    · intro _ parent work atParent _ ofBits
      cases atParent
      cases ofBits
      decide
    · exact headerCall_of_returns (by decide)
    · intro _ parent work atParent _ ofBits
      cases atParent
      cases ofBits
      decide
    · exact @headerCall_of_returns .dev (afterCalls .dev sampleWatcher.chainman (sampleExtension.take 1))
        (sampleHeader 3 2, false) (by decide)
  exact (topHeader_of_run sampleIndexed_wellFormed sampleIndexed_mostWork run.unguarded).2.mpr run

/-- Two headers on one parent: the second one replaces the first. -/
def sampleTie : List (BlockHeaderOwned × Bool) := [(sampleHeader 2 1, true), (sampleHeader 3 1, true)]

theorem topHeader_of_run_fails :
    ¬ ∀ (p : Profile) (w w' : Chainman) (calls : List (BlockHeaderOwned × Bool)), w.chain.WellFormed → w.chain.MostWork →
      Run (HeaderCall p) w calls w' → w'.chain.MostWork ∧ Run (FirstSeenCall p) w calls w' := by
  intro claim
  have first : HeaderCall .dev sampleWatcher.chainman (sampleHeader 2 1, true)
      (afterCalls .dev sampleWatcher.chainman (sampleTie.take 1)) := headerCall_of_returns (by decide)
  have second : HeaderCall .dev (afterCalls .dev sampleWatcher.chainman (sampleTie.take 1)) (sampleHeader 3 1, true)
      (afterCalls .dev sampleWatcher.chainman sampleTie) := headerCall_of_returns (by decide)
  have run := (claim .dev _ _ sampleTie sampleIndexed_wellFormed sampleIndexed_mostWork (.cons first (.single second))).2
  change Run (FirstSeenCall .dev) _ ([] ++ [(sampleHeader 2 1, true)] ++ [(sampleHeader 3 1, true)]) _ at run
  obtain ⟨s, previous, _, kept⟩ := run_snoc_iff.mp run
  obtain ⟨u, start, before⟩ := run_snoc_iff.mp previous
  rw [run_nil_iff.mp start] at before
  rw [before.1.unique first] at kept
  have tie : ¬ FirstSeen (afterCalls .dev sampleWatcher.chainman (sampleTie.take 1)) (sampleHeader 3 1, true)
      (afterCalls .dev sampleWatcher.chainman sampleTie) := by
    unfold FirstSeen
    decide
  exact tie kept

end Bitlens

import Bitlens.ForkWalk

namespace Bitlens
open Lib

/-- What a call without header sync must do: return, and report the fork between the
old and the new top. -/
def ForkComputed (w : Chainman) (header : BlockHeaderOwned) : Prop :=
  let call := w.validateAndApplyHeaderInner .dev header false
  call.2 ≠ .fault ∧ ∀ result, call.2 = .ok (some result) → ∃ m,
    ForkResult call.1.chain.parentOf w.chain.topHeader.header.hash call.1.chain.topHeader.header.hash result m

/-- The total work of a header on `q`. -/
def workOn (q : BlockHeaderWithNumber) (bits : UInt32) : Nat :=
  q.totalWork + 2 ^ 256 / (u256FromCompact bits + 1)

/-- What a header on `q` must meet: the timestamps of a period that ends at `q` are in
order; with the required bits its work is defined and fits 256 bits; and if it has as
much work as the top, it extends the top or its parent is not above the top. -/
structure Computable (c : Chain) (header : BlockHeaderOwned) (q : BlockHeaderWithNumber) : Prop where
  period : c.PeriodOrdered q
  work : c.getNextBitsRequired .dev q = .ok header.bits →
    u256FromCompact header.bits ≠ 0 ∧ workOn q header.bits < 2 ^ 256
  level : c.getNextBitsRequired .dev q = .ok header.bits → c.topHeader.totalWork ≤ workOn q header.bits →
    header.parent = c.topHeader.header.hash ∨ q.number ≤ c.topHeader.number

def ForkComputable (c : Chain) (header : BlockHeaderOwned) : Prop :=
  c.knownHeaders header.hash = none → ∀ q, c.knownHeaders header.parent = some q → Computable c header q

variable {p : Profile} {w : Chainman} {header : BlockHeaderOwned} {new q : BlockHeaderWithNumber}

namespace Chain

variable {c : Chain}

theorem newHeader_of_known (known : c.knownHeaders header.hash ≠ none) : c.newHeader p header = .ok none := by
  rw [newHeader, if_pos (Option.isSome_iff_ne_none.mpr known)]

theorem newHeader_of_orphan (unknown : c.knownHeaders header.hash = none) (orphan : c.knownHeaders header.parent = none) :
    c.newHeader p header = .err := by
  rw [newHeader, unknown, if_neg (by simp), orphan]
  rfl

/-- The checks of a new header on a known parent. -/
theorem newHeader_of_parent (unknown : c.knownHeaders header.hash = none)
    (atParent : c.knownHeaders header.parent = some q) :
    c.newHeader p header = (c.getNextBitsRequired p q >>= fun bits => Outcome.ensure (bits = header.bits) >>= fun _ =>
      getWork header.bits >>= fun work => u256Add q.totalWork work >>= fun total =>
        .ok (some ⟨header, q.number + 1, false, total, none⟩)) := by
  rw [newHeader, unknown, if_neg (by simp), atParent]
  rfl

/-- The checks do not return exactly when the period is out of order, or when the header
has the required bits and its work is undefined or too large. -/
theorem Grown.newHeader_of_parent (grown : c.Grown) (unknown : c.knownHeaders header.hash = none)
    (atParent : c.knownHeaders header.parent = some q) (period : c.PeriodOrdered q) :
    (c.getNextBitsRequired .dev q ≠ .ok header.bits ∧ c.newHeader .dev header = .err) ∨
      (c.getNextBitsRequired .dev q = .ok header.bits ∧
        c.newHeader .dev header = if u256FromCompact header.bits ≠ 0 ∧ workOn q header.bits < 2 ^ 256
          then .ok (some ⟨header, q.number + 1, false, workOn q header.bits, none⟩) else .fault) := by
  obtain ⟨bits, required⟩ := ((grown.getNextBitsRequired_dev atParent).resolve_right fun out => out.1 period).2
  rw [Chain.newHeader_of_parent unknown atParent, required, Outcome.ok_bind]
  by_cases agree : bits = header.bits
  · have bounded := grown.required_bounded atParent required
    rw [agree] at bounded ⊢
    refine Or.inr ⟨rfl, ?_⟩
    rw [Outcome.ensure, if_pos (decide_eq_true rfl), Outcome.ok_bind, getWork_eq bounded]
    by_cases zero : u256FromCompact header.bits = 0
    · rw [if_pos zero, if_neg (fun both => both.1 zero)]
      rfl
    · have sum : u256Add q.totalWork (2 ^ 256 / (u256FromCompact header.bits + 1)) =
          if workOn q header.bits < 2 ^ 256 then .ok (workOn q header.bits) else .fault := rfl
      rw [if_neg zero, Outcome.ok_bind, sum]
      by_cases small : workOn q header.bits < 2 ^ 256
      · rw [if_pos small, if_pos ⟨zero, small⟩]
        rfl
      · rw [if_neg small, if_neg (fun both => small both.2)]
        rfl
  · refine Or.inl ⟨fun same => agree (Outcome.ok.inj same), ?_⟩
    rw [Outcome.ensure, if_neg (by simpa using agree)]
    rfl

theorem Grown.newHeader_fault (grown : c.Grown) (unknown : c.knownHeaders header.hash = none)
    (atParent : c.knownHeaders header.parent = some q) (period : ¬ c.PeriodOrdered q) :
    c.newHeader .dev header = .fault := by
  have required := ((grown.getNextBitsRequired_dev atParent).resolve_left fun kept => period kept.1).2
  rw [Chain.newHeader_of_parent unknown atParent, required]
  rfl

end Chain

namespace Chainman

theorem validateAndApplyHeaderInner_of_err (checked : w.chain.newHeader p header = .err) (sync : Bool) :
    w.validateAndApplyHeaderInner p header sync = (w, .err) := by
  rw [validateAndApplyHeaderInner, checked]

theorem validateAndApplyHeaderInner_of_none (checked : w.chain.newHeader p header = .ok none) (sync : Bool) :
    w.validateAndApplyHeaderInner p header sync = (w, .ok none) := by
  rw [validateAndApplyHeaderInner, checked]

theorem validateAndApplyHeaderInner_of_fault (checked : w.chain.newHeader p header = .fault) (sync : Bool) :
    w.validateAndApplyHeaderInner p header sync = (w, .fault) := by
  rw [validateAndApplyHeaderInner, checked]

theorem validateAndApplyHeaderInner_of_light (checked : w.chain.newHeader p header = .ok (some new))
    (light : new.totalWork < w.chain.topHeader.totalWork) (sync : Bool) :
    w.validateAndApplyHeaderInner p header sync = (w.learn new, .ok none) := by
  rw [validateAndApplyHeaderInner, checked]
  exact if_pos light

theorem validateAndApplyHeaderInner_of_heavy (checked : w.chain.newHeader p header = .ok (some new))
    (heavy : w.chain.topHeader.totalWork ≤ new.totalWork) :
    w.validateAndApplyHeaderInner p header false = (w.learn new).applyNewTop p new := by
  rw [validateAndApplyHeaderInner, checked]
  exact if_neg (Nat.not_lt.mpr heavy)

theorem applyNewTop_of_extension (atTop : new.header.parent = w.chain.topHeader.header.hash) :
    (w.learn new).applyNewTop p new =
      ((w.learn new).setTop new, .ok (some ⟨[], [(new.header.hash, new.number)]⟩)) :=
  if_pos atTop

/-- The state after a header has replaced the top. -/
theorem Extends.setTop_downloaded (grows : Extends w.chain new) (rooted : w.chain.Rooted) :
    ∃ count, ((w.learn new).setTop new).chain.calculateDownloadedBlocks = .ok count := by
  have after := (grows.learn_rooted rooted).2
  have wf : ((w.learn new).setTop new).chain.WellFormed :=
    ⟨after.keyed, after.parents, new, learn_known_self, rfl, rfl⟩
  exact wf.calculateDownloadedBlocks

/-- The fork branch for a header whose parent is not above the top. -/
theorem Extends.applyNewTop_of_fork (grows : Extends w.chain new) (rooted : w.chain.Rooted)
    (atParent : w.chain.knownHeaders new.header.parent = some q) (step : new.number = q.number + 1)
    (apart : new.header.parent ≠ w.chain.topHeader.header.hash) (level : q.number ≤ w.chain.topHeader.number) :
    ∃ newNodes visitedOld count m, (w.learn new).applyNewTop p new =
        ({ (w.learn new).setTop new with downloadedBlocks := count },
          .ok (some ⟨visitedOld, ((new.header.hash, new.number) :: newNodes).reverse⟩)) ∧
      Above (w.learn new).chain.parentOf w.chain.topHeader.header.hash m w.chain.topHeader.header.hash ∧
        ForkResult (w.learn new).chain.parentOf w.chain.topHeader.header.hash new.header.hash
          ⟨visitedOld, ((new.header.hash, new.number) :: newNodes).reverse⟩ m := by
  obtain ⟨newNodes, visitedOld, m, walk, left, fork⟩ := grows.forkResult_of_fork (p := p) rooted atParent step apart level
  obtain ⟨count, counted⟩ := grows.setTop_downloaded rooted
  refine ⟨newNodes, visitedOld, count, m, ?_, left, fork⟩
  have apart' : new.header.parent ≠ (w.learn new).chain.topHeader.header.hash := apart
  rw [applyNewTop, if_neg apart', walk]
  dsimp only
  rw [counted]

theorem Extends.applyNewTop_fault (grows : Extends w.chain new) (rooted : w.chain.Rooted)
    (step : new.number = q.number + 1) (apart : new.header.parent ≠ w.chain.topHeader.header.hash)
    (above : w.chain.topHeader.number < q.number) : (w.learn new).applyNewTop .dev new = (w.learn new, .fault) := by
  have apart' : new.header.parent ≠ (w.learn new).chain.topHeader.header.hash := apart
  rw [applyNewTop, if_neg apart', (grows.learn_rooted rooted).1.forkWalk_fault step above]

end Chainman

/-- With the conditions, the call returns and reports the fork. -/
theorem Chain.Grown.forkComputed (grown : w.chain.Grown) (computable : ForkComputable w.chain header) :
    ForkComputed w header := by
  unfold ForkComputed
  by_cases known : w.chain.knownHeaders header.hash ≠ none
  · rw [Chainman.validateAndApplyHeaderInner_of_none (Chain.newHeader_of_known known)]
    exact ⟨by simp, fun result absent => by cases absent⟩
  have unknown := not_not.mp known
  cases atParent : w.chain.knownHeaders header.parent with
  | none =>
    rw [Chainman.validateAndApplyHeaderInner_of_err (Chain.newHeader_of_orphan unknown atParent)]
    exact ⟨by simp, fun result absent => by cases absent⟩
  | some q =>
    obtain ⟨period, work, level⟩ := computable unknown q atParent
    rcases grown.newHeader_of_parent unknown atParent period with ⟨_, refused⟩ | ⟨required, accepted⟩
    · rw [Chainman.validateAndApplyHeaderInner_of_err refused]
      exact ⟨by simp, fun result absent => by cases absent⟩
    rw [if_pos (work required)] at accepted
    by_cases light : workOn q header.bits < w.chain.topHeader.totalWork
    · rw [Chainman.validateAndApplyHeaderInner_of_light accepted light]
      exact ⟨by simp, fun result absent => by cases absent⟩
    have heavy := Nat.le_of_not_lt light
    obtain ⟨grows, _⟩ := Chainman.extends_of_newHeader accepted
    rw [Chainman.validateAndApplyHeaderInner_of_heavy accepted heavy]
    by_cases atTop : header.parent = w.chain.topHeader.header.hash
    · rw [Chainman.applyNewTop_of_extension atTop]
      refine ⟨by simp, fun result same => ⟨w.chain.topHeader.header.hash, ?_⟩⟩
      cases same
      exact grows.forkResult_of_extension grown.rooted atTop
    · obtain ⟨_, _, _, m, applied, _, fork⟩ := grows.applyNewTop_of_fork (p := .dev) grown.rooted atParent rfl atTop
        ((level required heavy).resolve_left atTop)
      rw [applied]
      refine ⟨by simp, fun result same => ⟨m, ?_⟩⟩
      cases same
      exact fork

/-- Each condition is needed for the call to return. -/
theorem Chain.Grown.forkComputable (grown : w.chain.Grown) (computed : ForkComputed w header) :
    ForkComputable w.chain header := by
  intro unknown q atParent
  have returns := computed.1
  have period : w.chain.PeriodOrdered q := by
    by_contra out
    rw [Chainman.validateAndApplyHeaderInner_of_fault (grown.newHeader_fault unknown atParent out)] at returns
    exact returns rfl
  have work : w.chain.getNextBitsRequired .dev q = .ok header.bits →
      u256FromCompact header.bits ≠ 0 ∧ workOn q header.bits < 2 ^ 256 := by
    intro required
    by_contra large
    rcases grown.newHeader_of_parent unknown atParent period with ⟨differ, _⟩ | ⟨_, checked⟩
    · exact differ required
    · rw [if_neg large] at checked
      rw [Chainman.validateAndApplyHeaderInner_of_fault checked] at returns
      exact returns rfl
  refine ⟨period, work, fun required heavy => ?_⟩
  by_contra neither
  obtain ⟨apart, above⟩ := not_or.mp neither
  rcases grown.newHeader_of_parent unknown atParent period with ⟨differ, _⟩ | ⟨_, accepted⟩
  · exact differ required
  · rw [if_pos (work required)] at accepted
    obtain ⟨grows, _⟩ := Chainman.extends_of_newHeader accepted
    rw [Chainman.validateAndApplyHeaderInner_of_heavy accepted heavy,
      grows.applyNewTop_fault grown.rooted rfl apart (Nat.lt_of_not_le above)] at returns
    exact returns rfl

theorem grown_of_run {calls : List (BlockHeaderOwned × Bool)} {start : Chainman} (genesis : start.chain = Chain.default)
    (run : Run (HeaderCall p) start calls w) : w.chain.Grown := by
  refine run.invariant (P := fun s => s.chain.Grown) ?_ fun _ _ _ kept step => step.grown kept
  rw [genesis]
  exact Chain.default_grown

/-- On every chain grown from genesis the fork is computed exactly under these conditions. -/
theorem fork_of_run {calls : List (BlockHeaderOwned × Bool)} {start : Chainman} (genesis : start.chain = Chain.default)
    (run : Run (HeaderCall p) start calls w) : ForkComputed w header ↔ ForkComputable w.chain header :=
  ⟨(grown_of_run genesis run).forkComputable, (grown_of_run genesis run).forkComputed⟩

/-! A fork of two siblings, and a period whose last header is older than its first. -/

def genesisChild (name : UInt8) : BlockHeaderOwned := { sampleHeader name 0 with parent := genesisHeader.hash }

theorem fork_of_run_sibling :
    ForkComputed (afterCalls .dev startChainman [(genesisChild 1, false)]) (genesisChild 2) := by
  have run : Run (HeaderCall .dev) startChainman [(genesisChild 1, false)]
      (afterCalls .dev startChainman [(genesisChild 1, false)]) := .single (headerCall_of_returns (by decide))
  refine (fork_of_run rfl run).mpr fun _ q atParent => ?_
  cases atParent
  refine ⟨fun last => ?_, fun _ => by decide, fun _ _ => Or.inr (by decide)⟩
  exact absurd last (by decide)

def tallHash : Nat → Hash
  | 0 => genesisHeader.hash
  | n + 1 => ⟨leBytes 32 (n + 1), length_leBytes _ _⟩

/-- The headers of a chain on genesis whose timestamps are zero. -/
def tallHeader (n : Nat) : BlockHeaderOwned := { sampleHeader 0 0 with parent := tallHash (n - 1), hash := tallHash n }

def tallRecord : Nat → BlockHeaderWithNumber
  | 0 => genesis
  | n + 1 => ⟨tallHeader (n + 1), n + 1, false, genesis.totalWork * (n + 2), none⟩

theorem leNat_tallHash {n : Nat} (small : n < 2 ^ 16) :
    leNat (tallHash n).1 = if n = 0 then leNat genesisHeader.hash.1 else n := by
  cases n with
  | zero => rfl
  | succ n =>
    rw [if_neg (Nat.succ_ne_zero n), tallHash, leNat_leBytes, Nat.mod_eq_of_lt (by omega)]

theorem tallHash_ne {i j : Nat} (smallI : i < 2 ^ 16) (smallJ : j < 2 ^ 16) (differ : i ≠ j) :
    tallHash i ≠ tallHash j := by
  intro same
  have value := congrArg (fun hash => leNat hash.1) same
  have large : 2 ^ 16 ≤ leNat genesisHeader.hash.1 := by decide
  rw [leNat_tallHash smallI, leNat_tallHash smallJ] at value
  split at value <;> split at value <;> omega

/-- The state after `k` of these headers. -/
structure Tall (k : Nat) (c : Chain) : Prop where
  top : c.topHeader = tallRecord k
  known : ∀ j ≤ k, c.knownHeaders (tallHash j) = some (tallRecord j)
  fresh : ∀ j, k < j → j < 2 ^ 16 → c.knownHeaders (tallHash j) = none

theorem Tall.step {k : Nat} (tall : Tall k w.chain) (inside : k < 2015) :
    HeaderCall p w (tallHeader (k + 1), true) ((w.learn (tallRecord (k + 1))).setTop (tallRecord (k + 1))) ∧
      Tall (k + 1) ((w.learn (tallRecord (k + 1))).setTop (tallRecord (k + 1))).chain := by
  have parentWork : (tallRecord k).totalWork = genesis.totalWork * (k + 1) := by
    cases k with
    | zero => rfl
    | succ k => rfl
  have parentNumber : (tallRecord k).number = k := by
    cases k with
    | zero => rfl
    | succ k => rfl
  have parentBits : (tallRecord k).header.bits = 0x1d00ffff := by
    cases k with
    | zero => rfl
    | succ k => rfl
  have fits : (tallRecord k).totalWork + genesis.totalWork < 2 ^ 256 := by
    rw [parentWork, show genesis.totalWork = 4295032833 from rfl]
    omega
  have accepted : w.chain.newHeader p (tallHeader (k + 1)) = .ok (some (tallRecord (k + 1))) := by
    refine Chain.newHeader_eq_ok_some.mpr ⟨tall.fresh (k + 1) (by omega) (by omega), tallRecord k, genesis.totalWork,
      tall.known k le_rfl, ?_, genesis_totalWork, fits, ?_⟩
    · have interval : difficultyAdjustmentInterval = 2016 := rfl
      rw [Chain.getNextBitsRequired_of_inside (by rw [parentNumber, interval]; omega), parentBits]
      rfl
    · rw [parentWork, parentNumber]
      rfl
  constructor
  · refine ⟨.ok none, ?_, by simp⟩
    have heavy : ¬ (tallRecord (k + 1)).totalWork < w.chain.topHeader.totalWork := by
      rw [tall.top, parentWork]
      exact Nat.not_lt.mpr (Nat.mul_le_mul_left _ (by omega))
    rw [Chainman.validateAndApplyHeaderInner, accepted]
    dsimp only
    rw [if_neg heavy]
    rfl
  · refine ⟨rfl, fun j below => ?_, fun j above small => ?_⟩
    · by_cases last : j = k + 1
      · rw [last]
        exact @Chainman.learn_known_self w (tallRecord (k + 1))
      · have other : tallHash j ≠ tallHash (k + 1) := tallHash_ne (by omega) (by omega) last
        exact (@Chainman.learn_known_of_ne w (tallRecord (k + 1)) _ other).trans (tall.known j (by omega))
    · have other : tallHash j ≠ tallHash (k + 1) := tallHash_ne small (by omega) (by omega)
      exact (@Chainman.learn_known_of_ne w (tallRecord (k + 1)) _ other).trans (tall.fresh j (by omega) small)

theorem tall_run (k : Nat) (inside : k ≤ 2015) : ∃ calls w, Run (HeaderCall p) startChainman calls w ∧ Tall k w.chain := by
  induction k with
  | zero =>
    refine ⟨[], startChainman, .nil, rfl, fun j below => ?_, fun j above small => ?_⟩
    · rw [Nat.le_zero.mp below]
      rfl
    · have other : tallHash j ≠ tallHash 0 := tallHash_ne small (by omega) (by omega)
      exact @mapInsert_of_ne _ _ _ (fun _ => none) genesisHeader.hash _ genesis other
  | succ k ih =>
    obtain ⟨calls, w, run, tall⟩ := ih (by omega)
    obtain ⟨call, next⟩ := tall.step (p := p) (by omega)
    exact ⟨_, _, run.snoc call, next⟩

/-- At the end of the first period the timestamps are subtracted below zero. -/
theorem fork_of_run_fails :
    ¬ ∀ (p : Profile) (start w : Chainman) (calls : List (BlockHeaderOwned × Bool)) (header : BlockHeaderOwned),
      start.chain = Chain.default → Run (HeaderCall p) start calls w → ForkComputed w header := by
  intro claim
  obtain ⟨calls, w, run, tall⟩ := tall_run (p := .dev) 2015 le_rfl
  have grown := grown_of_run rfl run
  have stored := tall.known 2015 le_rfl
  have period := (grown.forkComputable (claim .dev startChainman w calls (tallHeader 2016) rfl run)
    (tall.fresh 2016 (by omega) (by omega)) _ stored).period
  obtain ⟨first, found, ⟨record, atFirst, sameHeader, sameNumber⟩, level, _⟩ :=
    grown.wellFormed.getAncestor (grown.wellFormed.holds_of_known stored) (Nat.zero_le _)
  have root := grown.root _ record atFirst (by omega)
  rw [root] at atFirst
  cases atFirst.symm.trans (tall.known 0 (by omega))
  have ordered := period rfl first found
  rw [← sameHeader] at ordered
  exact absurd ordered (by decide)

end Bitlens

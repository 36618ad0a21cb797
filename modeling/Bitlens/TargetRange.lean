import Bitlens.GrownChain
import Bitlens.Decoders

namespace Bitlens
open Lib

/-- A call with a header that satisfies `is_valid`. -/
def ValidCall (p : Profile) (w : Chainman) (call : BlockHeaderOwned × Bool) (w' : Chainman) : Prop :=
  isValid call.1.hash call.1.bits ∧ HeaderCall p w call w'

/-- A grown chain all of whose headers satisfy `is_valid`. -/
structure Chain.Mined (c : Chain) : Prop where
  grown : c.Grown
  valid : ∀ hash b, c.knownHeaders hash = some b → isValid hash b.header.bits

/-- What the arithmetic on a target needs, whatever the timestamps are. -/
structure TargetInRange (bits : UInt32) : Prop where
  positive : 1 ≤ u256FromCompact bits
  bounded : u256FromCompact bits ≤ powLimit
  work : getWork bits = .ok (2 ^ 256 / (u256FromCompact bits + 1))
  scaled : ∀ elapsed, u256Mul (u256FromCompact bits) (clampTimespan elapsed) =
      .ok (u256FromCompact bits * clampTimespan elapsed) ∧
    u256Div (u256FromCompact bits * clampTimespan elapsed) powTargetTimespan =
      .ok (u256FromCompact bits * clampTimespan elapsed / powTargetTimespan)
  retarget : ∀ (p : Profile) (last first : UInt32) (elapsed : Nat), p.sub 32 last.toNat first.toNat = .ok elapsed →
    ∃ next, calculateNextWorkRequired p last first bits = .ok next

variable {p : Profile} {w w' : Chainman} {call : BlockHeaderOwned × Bool} {new : BlockHeaderWithNumber}

theorem targetInRange {bits : UInt32} (positive : 1 ≤ u256FromCompact bits) (bounded : u256FromCompact bits ≤ powLimit) :
    TargetInRange bits where
  positive := positive
  bounded := bounded
  work := by rw [getWork_eq bounded, if_neg (by omega)]
  scaled elapsed := scale_ok bounded (clampTimespan_bounds elapsed).2
  retarget p last first elapsed difference := by
    obtain ⟨next, result, _⟩ := calculateNextWorkRequired_ok difference bounded
    exact ⟨next, result⟩

theorem Chain.default_mined : Chain.default.Mined := by
  refine ⟨default_grown, fun hash b stored => ?_⟩
  obtain ⟨same, record⟩ := default_known stored
  rw [same, record]
  decide

theorem Chain.Mined.learn (mined : w.chain.Mined) {header : BlockHeaderOwned}
    (accepted : w.chain.newHeader p header = .ok (some new)) (valid : isValid header.hash header.bits) :
    (w.learn new).chain.Mined := by
  have same := (Chainman.extends_of_newHeader accepted).2
  refine ⟨mined.grown.learn accepted, fun hash b stored => ?_⟩
  rcases Chainman.learn_known_cases stored with ⟨atNew, record⟩ | before
  · rw [atNew, record, same]
    exact valid
  · exact mined.valid hash b before

/-- The step lemma. -/
theorem ValidCall.mined (step : ValidCall p w call w') (mined : w.chain.Mined) : w'.chain.Mined := by
  obtain ⟨valid, step⟩ := step
  have grown := step.grown mined.grown
  rcases step.cases with ⟨_, same⟩ | ⟨new, accepted, ⟨_, same⟩ | ⟨_, same⟩⟩
  · rw [same]
    exact mined
  · rw [same]
    exact mined.learn accepted valid
  · rw [same] at grown ⊢
    exact ⟨grown, (mined.learn accepted valid).valid⟩

/-- On every chain grown from genesis by valid headers, every header's target is in
range for the work and for the retarget rule. -/
theorem targets_of_run {calls : List (BlockHeaderOwned × Bool)} {start : Chainman} (genesis : start.chain = Chain.default)
    (run : Run (ValidCall p) start calls w) {hash : Hash} {b : BlockHeaderWithNumber}
    (stored : w.chain.knownHeaders hash = some b) : TargetInRange b.header.bits := by
  have mined : w.chain.Mined := by
    refine run.invariant (P := fun s => s.chain.Mined) ?_ fun _ _ _ kept step => step.mined kept
    rw [genesis]
    exact Chain.default_mined
  have valid := mined.valid hash b stored
  exact targetInRange (Nat.succ_le_of_lt (Nat.zero_lt_of_lt valid)) (mined.grown.bounded hash b stored)

/-- The header behind the genesis block of the main network, as it stands in a message of headers. -/
def minedHeader : BlockHeaderOwned where
  version := 1
  parent := genesisHeader.hash
  merkleRoot := ⟨[0x98, 0x20, 0x51, 0xfd, 0x1e, 0x4b, 0xa7, 0x44, 0xbb, 0xbe, 0x68, 0x0e, 0x1f, 0xee, 0x14, 0x67,
    0x7b, 0xa1, 0xa3, 0xc3, 0x54, 0x0b, 0xf7, 0xb1, 0xcd, 0xb6, 0x06, 0xe8, 0x57, 0x23, 0x3e, 0x0e], rfl⟩
  timestamp := 1231469665
  bits := 0x1d00ffff
  nonce := 2573394689
  txsCount := 0
  hash := ⟨[0x48, 0x60, 0xeb, 0x18, 0xbf, 0x1b, 0x16, 0x20, 0xe3, 0x7e, 0x94, 0x90, 0xfc, 0x8a, 0x42, 0x75,
    0x14, 0x41, 0x6f, 0xd7, 0x51, 0x59, 0xab, 0x86, 0x68, 0x8e, 0x9a, 0x83, 0x00, 0x00, 0x00, 0x00], rfl⟩

theorem targets_of_run_mined : TargetInRange minedHeader.bits := by
  have run : Run (ValidCall .dev) startChainman [(minedHeader, true)] (afterCalls .dev startChainman [(minedHeader, true)]) :=
    .single ⟨by decide, headerCall_of_returns (by decide)⟩
  have stored : (afterCalls .dev startChainman [(minedHeader, true)]).chain.knownHeaders minedHeader.hash =
      some ⟨minedHeader, 1, false, 2 * genesis.totalWork, none⟩ := by decide
  exact targets_of_run rfl run stored

end Bitlens

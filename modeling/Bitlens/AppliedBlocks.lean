import Bitlens.BlockApplication
import Bitlens.Lib.Pairs

namespace Bitlens
open Lib

/-- The outputs that inputs spend, of a transaction of the block or of what the lookup
tasks return from some task on. -/
def dependencies (selfTxs : Hash → Option Tx) (lookup : Nat → Option (List TxOut)) : Nat → List TxIn → Option (List TxOut)
  | _, [] => some []
  | task, txin :: rest =>
    match selfTxs txin.prevoutHash with
    | some source =>
      source.txouts[txin.prevoutIndex.toNat]?.bind fun dep =>
        (dependencies selfTxs lookup task rest).map (dep :: ·)
    | none =>
      (taskOutput lookup task txin).bind fun dep => (dependencies selfTxs lookup (task + 1) rest).map (dep :: ·)

/-- The transactions with the outputs they spend. -/
def spending : List Tx → List TxOut → List (Tx × List TxOut)
  | [], _ => []
  | tx :: txs, deps => (tx, deps.take tx.txinCount) :: spending txs (deps.drop tx.txinCount)

def valueOf (txouts : List TxOut) : Nat :=
  (txouts.map fun txout => txout.value.toNat).sum

def feeOf (pair : Tx × List TxOut) : Nat :=
  if pair.1.isCoinbase then 0 else valueOf pair.2 - valueOf pair.1.txouts

/-- No transaction creates value, and the sums that the analysis forms stay in `u64`. -/
structure AmountsFit (pairs : List (Tx × List TxOut)) : Prop where
  balanced : ∀ pair ∈ pairs, pair.1.isCoinbase = false →
    valueOf pair.2 < 2 ^ 64 ∧ valueOf pair.1.txouts ≤ valueOf pair.2
  fees : (pairs.map feeOf).sum < 2 ^ 64
  volume : (pairs.map fun pair => valueOf pair.1.txouts).sum < 2 ^ 64

/-- Counting the signature operations and making the amends does not panic. -/
def ScriptsReturn (scripts : Scripts) (timestamp : UInt64) (pair : Tx × List TxOut) : Prop :=
  (∃ sigops, scripts.getTransactionSigopCost pair.1 pair.2 = .ok sigops) ∧
    ∃ amends, scripts.serializeAddressAmends pair.1 pair.2 timestamp = .ok amends

def amendsOf (scripts : Scripts) (timestamp : UInt64) (pair : Tx × List TxOut) : List (Bytes × Int64) :=
  match scripts.serializeAddressAmends pair.1 pair.2 timestamp with
  | .ok amends => amends.getD []
  | _ => []

/-- The deltas of each address in a transaction add up without overflow. -/
def DeltasFit (scripts : Scripts) (timestamp : UInt64) (pair : Tx × List TxOut) : Prop :=
  ∃ merged, mergeAmends .dev [] (amendsOf scripts timestamp pair) = .ok merged

/-- What analysing and writing a block takes from the arena. -/
def blockArrays (scripts : Scripts) (timestamp : UInt64) (pairs : List (Tx × List TxOut)) : List (Layout × Nat) :=
  (pairs.flatMap fun pair => analyzeTxArrays pair.1 pair.2 timestamp) ++ [(sliceLayout, 1)] ++
    writeArrays [pairs.length] (pairs.map fun pair => pair.1.txinCount).sum
      (pairs.map fun pair => (amendsOf scripts timestamp pair).length).sum

/-- The analysis of the transactions and the writing return. -/
structure Workable (p : Profile) (scripts : Scripts) (arena : Arena) (timestamp : UInt64) (pairs : List (Tx × List TxOut)) :
    Prop where
  returns : ∀ pair ∈ pairs, ScriptsReturn scripts timestamp pair
  amounts : p = .dev → AmountsFit pairs
  deltas : p = .dev → ∀ pair ∈ pairs, DeltasFit scripts timestamp pair
  memory : arena.Fits 0 ((blockArrays scripts timestamp pairs).map .array)

/-- The script of the first input of the first transaction. -/
def coinbaseScript (block : Block) : Bytes :=
  ((block.txs.head?.bind fun tx => tx.txins.head?).map (·.sigScript)).getD []

/-- The block can be applied: its first transaction has an input, its header is known,
every output it spends is found, and the work on the transactions returns. -/
structure Applicable (p : Profile) (scripts : Scripts) (env : Surroundings) (block : Block) (c : Chain) : Prop where
  coinbase : ∃ tx ∈ block.txs.head?, tx.txins ≠ []
  known : c.Known block.header.hash
  found : ∃ deps, dependencies (selfTxs block) env.lookup 0 block.spends = some deps ∧
    Workable p scripts env.analyzedArena block.header.timestamp.toUInt64 (spending block.txs deps)

/-- The block passes the handler's checks for the front entry. -/
def Checks (sha256 : Bytes → Hash) (block : Block) (entry : QueueEntry) : Prop :=
  block.header.hash = entry.hash ∧ (segwitHeight ≤ entry.number → verifyWitnessCommitment sha256 block = .ok ())

variable {selfTxs : Hash → Option Tx} {lookup : Nat → Option (List TxOut)}

theorem ownedDeps_append (front back : List TxIn) (task : Nat) : ownedDeps lookup task (front ++ back) =
    (ownedDeps lookup task front).bind fun owned => (ownedDeps lookup (task + front.length) back).map (owned ++ ·) := by
  induction front generalizing task with
  | nil => simp [ownedDeps]
  | cons txin front ih =>
    simp only [List.cons_append, ownedDeps, ih, List.length_cons]
    cases taskOutput lookup task txin with
    | none => rfl
    | some dep =>
      simp only [Option.bind_some]
      rw [show task + 1 + front.length = task + (front.length + 1) by omega]
      cases ownedDeps lookup (task + 1) front <;> cases ownedDeps lookup (task + (front.length + 1)) back <;> rfl

theorem ownedDeps_length {task : Nat} {txins : List TxIn} {owned : List TxOut}
    (result : ownedDeps lookup task txins = some owned) : owned.length = txins.length := by
  induction txins generalizing task owned with
  | nil =>
    cases result
    rfl
  | cons txin rest ih =>
    obtain ⟨dep, _, result⟩ := Option.bind_eq_some_iff.mp result
    obtain ⟨others, atRest, shape⟩ := Option.map_eq_some_iff.mp result
    rw [← shape, List.length_cons, List.length_cons, ih atRest]

/-- The tasks spawned so far stay the first ones. -/
theorem pendingDeps_handles {txins depsHandles handles : List TxIn} {pending : List (TxOut ⊕ Nat)}
    (result : pendingDeps selfTxs txins depsHandles = .ok (pending, handles)) : ∃ more, handles = depsHandles ++ more := by
  induction txins generalizing depsHandles handles pending with
  | nil =>
    cases result
    exact ⟨[], (List.append_nil _).symm⟩
  | cons txin rest ih =>
    rw [pendingDeps] at result
    split at result
    · obtain ⟨txout, _, result⟩ := Outcome.bind_eq_ok.mp result
      obtain ⟨⟨others, all⟩, atRest, shape⟩ := Outcome.bind_eq_ok.mp result
      cases shape
      exact ih atRest
    · obtain ⟨⟨others, all⟩, atRest, shape⟩ := Outcome.bind_eq_ok.mp result
      cases shape
      obtain ⟨more, all⟩ := ih atRest
      exact ⟨txin :: more, by rw [all, List.append_assoc]; rfl⟩

theorem ownedDeps_push {depsHandles : List TxIn} {owned : List TxOut} (before : ownedDeps lookup 0 depsHandles = some owned)
    (txin : TxIn) : ownedDeps lookup 0 (depsHandles ++ [txin]) =
      (taskOutput lookup depsHandles.length txin).map fun dep => owned ++ [dep] := by
  have appended := @ownedDeps_append lookup depsHandles [txin] 0
  simp only [before, Option.bind_some, Nat.zero_add, ownedDeps] at appended
  rw [appended]
  cases taskOutput lookup depsHandles.length txin <;> rfl

/-- The task of an input returns the output at its place among all awaited outputs. -/
theorem ownedDeps_at {depsHandles handles rest : List TxIn} {owned all : List TxOut} {txin : TxIn}
    {pending : List (TxOut ⊕ Nat)} (before : ownedDeps lookup 0 depsHandles = some owned)
    (spawned : pendingDeps selfTxs rest (depsHandles ++ [txin]) = .ok (pending, handles))
    (awaited : ownedDeps lookup 0 handles = some all) :
    ∃ dep, taskOutput lookup depsHandles.length txin = some dep ∧ all[depsHandles.length]? = some dep := by
  obtain ⟨more, rfl⟩ := pendingDeps_handles spawned
  rw [ownedDeps_append, ownedDeps_push before] at awaited
  obtain ⟨front, pushed, awaited⟩ := Option.bind_eq_some_iff.mp awaited
  obtain ⟨dep, looked, rfl⟩ := Option.map_eq_some_iff.mp pushed
  obtain ⟨tail, _, rfl⟩ := Option.map_eq_some_iff.mp awaited
  refine ⟨dep, looked, ?_⟩
  rw [← ownedDeps_length before]
  simp

/-- Spawning, awaiting and assembling gives the dependencies, when it gets through. -/
theorem dependencies_eq_some {txins depsHandles : List TxIn} {owned deps : List TxOut}
    (before : ownedDeps lookup 0 depsHandles = some owned) :
    dependencies selfTxs lookup depsHandles.length txins = some deps ↔
      ∃ pending handles all, pendingDeps selfTxs txins depsHandles = .ok (pending, handles) ∧
        ownedDeps lookup 0 handles = some all ∧ assembleDeps all pending = .ok deps := by
  induction txins generalizing depsHandles owned deps with
  | nil =>
    constructor
    · intro found
      cases found
      exact ⟨[], depsHandles, owned, rfl, before, rfl⟩
    · intro ⟨pending, handles, all, spawned, _, assembled⟩
      cases spawned
      cases assembled
      rfl
  | cons txin rest ih =>
    rw [dependencies, pendingDeps]
    cases selfTxs txin.prevoutHash with
    | some source =>
      cases own : source.txouts[txin.prevoutIndex.toNat]? with
      | none => simp [own]
      | some dep =>
        simp only [own, Option.bind_some, Outcome.unwrap_some, Outcome.ok_bind, Option.map_eq_some_iff]
        constructor
        · intro ⟨others, atRest, shape⟩
          obtain ⟨pending, handles, all, spawned, awaited, assembled⟩ := (ih before).mp atRest
          refine ⟨.inl dep :: pending, handles, all, ?_, awaited, ?_⟩
          · simp only [spawned, Outcome.ok_bind, Outcome.pure_def]
          · simp only [assembleDeps, assembled, Outcome.ok_bind, Outcome.pure_def, shape]
        · intro ⟨pending, handles, all, spawned, awaited, assembled⟩
          obtain ⟨⟨others, same⟩, atRest, shape⟩ := Outcome.bind_eq_ok.mp spawned
          cases shape
          obtain ⟨depsRest, ofRest, shape⟩ := Outcome.bind_eq_ok.mp assembled
          cases shape
          exact ⟨depsRest, (ih before).mpr ⟨others, _, all, atRest, awaited, ofRest⟩, rfl⟩
    | none =>
      simp only [Outcome.bind_eq_ok, Option.bind_eq_some_iff, Option.map_eq_some_iff]
      have length : (depsHandles ++ [txin]).length = depsHandles.length + 1 := List.length_append
      have pushed : ∀ {dep}, taskOutput lookup depsHandles.length txin = some dep →
          ownedDeps lookup 0 (depsHandles ++ [txin]) = some (owned ++ [dep]) := fun looked => by
        rw [ownedDeps_push before, looked, Option.map_some]
      constructor
      · intro ⟨dep, looked, others, atRest, shape⟩
        rw [← length] at atRest
        obtain ⟨pending, handles, all, spawned, awaited, assembled⟩ := (ih (pushed looked)).mp atRest
        obtain ⟨dep', looked', atTask⟩ := ownedDeps_at before spawned awaited
        cases looked.symm.trans looked'
        refine ⟨.inr depsHandles.length :: pending, handles, all, ⟨_, spawned, rfl⟩, awaited, ?_⟩
        simp only [assembleDeps, atTask, Outcome.unwrap_some, Outcome.ok_bind, assembled, Outcome.pure_def, shape]
      · intro ⟨pending, handles, all, ⟨⟨others, same⟩, spawned, shape⟩, awaited, assembled⟩
        cases shape
        obtain ⟨dep, looked, atTask⟩ := ownedDeps_at before spawned awaited
        obtain ⟨dep', found, assembled⟩ := Outcome.bind_eq_ok.mp assembled
        obtain ⟨depsRest, ofRest, shape⟩ := Outcome.bind_eq_ok.mp assembled
        cases shape
        rw [atTask] at found
        cases found
        have atRest := (ih (pushed looked)).mpr ⟨others, _, all, spawned, awaited, ofRest⟩
        rw [length] at atRest
        exact ⟨dep, looked, depsRest, atRest, rfl⟩

theorem dependencies_length {task : Nat} {txins : List TxIn} {deps : List TxOut}
    (result : dependencies selfTxs lookup task txins = some deps) : deps.length = txins.length := by
  induction txins generalizing task deps with
  | nil =>
    cases result
    rfl
  | cons txin rest ih =>
    rw [dependencies] at result
    split at result
    all_goals
      obtain ⟨dep, _, result⟩ := Option.bind_eq_some_iff.mp result
      obtain ⟨others, atRest, shape⟩ := Option.map_eq_some_iff.mp result
      rw [← shape, List.length_cons, List.length_cons, ih atRest]

theorem length_spends (block : Block) : block.spends.length = (block.txs.map Tx.txinCount).sum := by
  unfold Block.spends
  induction block.txs with
  | nil => rfl
  | cons tx txs ih =>
    rw [List.filter_cons, List.map_cons, List.sum_cons, ← ih, Tx.txinCount]
    cases tx.isCoinbase <;> simp

/-! The analysis. -/

section Analysis

variable {p : Profile} {scripts : Scripts} {header : BlockHeaderOwned}

theorem sumU64_dev {values : List UInt64} {total : Nat} :
    sumU64 .dev values = .ok total ↔ (values.map UInt64.toNat).sum < 2 ^ 64 ∧ total = (values.map UInt64.toNat).sum := by
  induction values generalizing total with
  | nil => simp [sumU64, eq_comm]
  | cons value rest ih =>
    simp only [sumU64, Outcome.bind_eq_ok, Profile.dev_add_eq_ok, List.map_cons, List.sum_cons]
    constructor
    · intro ⟨others, atRest, fits, same⟩
      obtain ⟨_, rfl⟩ := ih.mp atRest
      exact ⟨fits, same⟩
    · intro ⟨fits, same⟩
      exact ⟨_, ih.mpr ⟨by omega, rfl⟩, fits, same⟩

theorem sumU64_of_lt {values : List UInt64} (fits : (values.map UInt64.toNat).sum < 2 ^ 64) :
    sumU64 p values = .ok (values.map UInt64.toNat).sum := by
  induction values with
  | nil => rfl
  | cons value rest ih =>
    rw [List.map_cons, List.sum_cons] at fits ⊢
    rw [sumU64, ih (by omega), Outcome.ok_bind]
    exact Profile.add_of_lt fits

theorem sumU64_release {values : List UInt64} : ∃ total, sumU64 .release values = .ok total := by
  induction values with
  | nil => exact ⟨0, rfl⟩
  | cons value rest ih =>
    obtain ⟨others, atRest⟩ := ih
    rw [sumU64, atRest, Outcome.ok_bind]
    exact Profile.release_add

theorem valueOf_eq (txouts : List TxOut) : ((txouts.map (·.value)).map UInt64.toNat).sum = valueOf txouts := by
  rw [List.map_map]
  rfl

theorem calculateFee_dev {tx : Tx} {deps : List TxOut} {fee : Nat} :
    calculateFee .dev tx deps = .ok fee ↔ valueOf deps < 2 ^ 64 ∧ valueOf tx.txouts ≤ valueOf deps ∧
      fee = valueOf deps - valueOf tx.txouts := by
  simp only [calculateFee, Outcome.bind_eq_ok, sumU64_dev, Profile.dev_sub_eq_ok, valueOf_eq]
  constructor
  · intro ⟨_, ⟨fits, atDeps⟩, _, ⟨_, atOuts⟩, enough, same⟩
    subst atDeps atOuts
    exact ⟨fits, enough, same⟩
  · intro ⟨fits, enough, same⟩
    exact ⟨_, ⟨fits, rfl⟩, _, ⟨by omega, rfl⟩, enough, same⟩

theorem calculateFee_of_le {tx : Tx} {deps : List TxOut} (fits : valueOf deps < 2 ^ 64)
    (enough : valueOf tx.txouts ≤ valueOf deps) : calculateFee p tx deps = .ok (valueOf deps - valueOf tx.txouts) := by
  rw [calculateFee, sumU64_of_lt (by rwa [valueOf_eq]), Outcome.ok_bind, sumU64_of_lt (by rw [valueOf_eq]; omega),
    Outcome.ok_bind, valueOf_eq, valueOf_eq]
  exact Profile.sub_of_le enough

theorem analyzeTx_parts {blockHash : Hash} {tx : Tx} {deps : List TxOut} {timestamp : UInt64} {record : SerializedTx}
    (result : analyzeTx p scripts blockHash tx deps timestamp = .ok record) :
    record.spentTxos = (if tx.isCoinbase then none else some (serializeSpends tx)) ∧
      scripts.serializeAddressAmends tx deps timestamp = .ok record.addressAmends := by
  obtain ⟨fee, _, result⟩ := Outcome.bind_eq_ok.mp result
  obtain ⟨txoutsSum, _, result⟩ := Outcome.bind_eq_ok.mp result
  obtain ⟨sigops, _, result⟩ := Outcome.bind_eq_ok.mp result
  obtain ⟨addressAmends, made, result⟩ := Outcome.bind_eq_ok.mp result
  cases result
  exact ⟨rfl, made⟩

theorem exists_analyzeTx {blockHash : Hash} {tx : Tx} {deps : List TxOut} {timestamp : UInt64} :
    (∃ record, analyzeTx p scripts blockHash tx deps timestamp = .ok record) ↔
      (∃ fee, (if tx.isCoinbase then .ok 0 else calculateFee p tx deps : Outcome Nat) = .ok fee) ∧
        (∃ total, sumU64 p (tx.txouts.map (·.value)) = .ok total) ∧ ScriptsReturn scripts timestamp (tx, deps) := by
  simp only [analyzeTx, Outcome.bind_eq_ok]
  constructor
  · intro ⟨_, fee, paid, total, sum, sigops, counted, amends, made, _⟩
    exact ⟨⟨fee, paid⟩, ⟨total, sum⟩, ⟨sigops, counted⟩, amends, made⟩
  · intro ⟨⟨fee, paid⟩, ⟨total, sum⟩, ⟨sigops, counted⟩, amends, made⟩
    exact ⟨_, fee, paid, total, sum, sigops, counted, amends, made, rfl⟩

/-- With overflow checks a transaction is analysed when it creates no value. -/
theorem analyzeTx_dev {blockHash : Hash} {tx : Tx} {deps : List TxOut} {timestamp : UInt64} :
    (∃ record, analyzeTx .dev scripts blockHash tx deps timestamp = .ok record) ↔
      (tx.isCoinbase = false → valueOf deps < 2 ^ 64 ∧ valueOf tx.txouts ≤ valueOf deps) ∧ valueOf tx.txouts < 2 ^ 64 ∧
        ScriptsReturn scripts timestamp (tx, deps) := by
  rw [exists_analyzeTx]
  simp only [sumU64_dev, valueOf_eq]
  cases tx.isCoinbase with
  | true => simp
  | false =>
    simp only [Bool.false_eq_true, if_false, calculateFee_dev, forall_true_left]
    constructor
    · intro ⟨⟨fee, fits, enough, _⟩, ⟨total, small, _⟩, scripts⟩
      exact ⟨⟨fits, enough⟩, small, scripts⟩
    · intro ⟨⟨fits, enough⟩, small, scripts⟩
      exact ⟨⟨_, fits, enough, rfl⟩, ⟨_, small, rfl⟩, scripts⟩

theorem analyzeTx_dev_amounts {blockHash : Hash} {tx : Tx} {deps : List TxOut} {timestamp : UInt64} {record : SerializedTx}
    (result : analyzeTx .dev scripts blockHash tx deps timestamp = .ok record) :
    record.fee.toNat = feeOf (tx, deps) ∧ record.txoutsSum.toNat = valueOf tx.txouts := by
  obtain ⟨fee, atFee, result⟩ := Outcome.bind_eq_ok.mp result
  obtain ⟨txoutsSum, atSum, result⟩ := Outcome.bind_eq_ok.mp result
  obtain ⟨sigops, _, result⟩ := Outcome.bind_eq_ok.mp result
  obtain ⟨addressAmends, _, result⟩ := Outcome.bind_eq_ok.mp result
  cases result
  obtain ⟨small, rfl⟩ := sumU64_dev.mp atSum
  rw [valueOf_eq] at small ⊢
  refine ⟨?_, UInt64.toNat_ofNat_of_lt' small⟩
  unfold feeOf
  cases coinbase : tx.isCoinbase with
  | true =>
    rw [coinbase] at atFee
    cases atFee
    rfl
  | false =>
    rw [coinbase] at atFee
    obtain ⟨fits, _, rfl⟩ := calculateFee_dev.mp atFee
    exact UInt64.toNat_ofNat_of_lt' (Nat.lt_of_le_of_lt (Nat.sub_le _ _) fits)

theorem analyzeTx_release {blockHash : Hash} {tx : Tx} {deps : List TxOut} {timestamp : UInt64} :
    (∃ record, analyzeTx .release scripts blockHash tx deps timestamp = .ok record) ↔
      ScriptsReturn scripts timestamp (tx, deps) := by
  rw [exists_analyzeTx]
  refine ⟨fun ⟨_, _, scripts⟩ => scripts, fun scripts => ⟨?_, sumU64_release, scripts⟩⟩
  obtain ⟨totalOut, outs⟩ := @sumU64_release (tx.txouts.map (·.value))
  obtain ⟨totalIn, ins⟩ := @sumU64_release (deps.map (·.value))
  obtain ⟨fee, difference⟩ := @Profile.release_sub 64 totalIn totalOut
  split
  · exact ⟨0, rfl⟩
  · exact ⟨fee, by simp only [calculateFee, ins, outs, Outcome.ok_bind, difference]⟩

theorem spending_txs (txs : List Tx) (deps : List TxOut) : (spending txs deps).map Prod.fst = txs := by
  induction txs generalizing deps with
  | nil => rfl
  | cons tx txs ih => rw [spending, List.map_cons, ih]

theorem txinCount_le (tx : Tx) : tx.txinCount ≤ tx.txins.length := by
  unfold Tx.txinCount
  split <;> omega

/-- The loop over the transactions with the outputs they spend, without the memory: the
records, the fees and the volume. -/
def analyzeSpending (p : Profile) (scripts : Scripts) (header : BlockHeaderOwned) :
    List (Tx × List TxOut) → Nat → Nat → Outcome (List SerializedTx × Nat × Nat)
  | [], feesTotal, volume => .ok ([], feesTotal, volume)
  | (tx, deps) :: rest, feesTotal, volume => do
    let analyzed ← analyzeTx p scripts header.hash tx deps header.timestamp.toUInt64
    let feesTotal ← p.add 64 feesTotal analyzed.fee.toNat
    let volume ← p.add 64 volume analyzed.txoutsSum.toNat
    let (others, totals) ← analyzeSpending p scripts header rest feesTotal volume
    pure (analyzed :: others, totals)

theorem analyzeTxIn_eq_ok {arena : Arena} {blockHash : Hash} {tx : Tx} {deps : List TxOut} {timestamp : UInt64}
    {consumed used : Nat} {record : SerializedTx} :
    analyzeTxIn p scripts arena blockHash tx deps timestamp consumed = .ok (record, used) ↔
      analyzeTx p scripts blockHash tx deps timestamp = .ok record ∧
        arena.reserveArrays (analyzeTxArrays tx deps timestamp) consumed = .ok used := by
  simp [analyzeTxIn, Outcome.bind_eq_ok]

theorem analyzeTxs_spending {arena : Arena} {txs : List Tx} {deps : List TxOut} {feesTotal volume consumed used : Nat}
    {records : List SerializedTx}
    (result : analyzeTxs p scripts arena header txs deps feesTotal volume consumed = .ok (records, used)) :
    (∃ totals, analyzeSpending p scripts header (spending txs deps) feesTotal volume = .ok (records, totals)) ∧
      arena.reserveArrays ((spending txs deps).flatMap fun pair =>
        analyzeTxArrays pair.1 pair.2 header.timestamp.toUInt64) consumed = .ok used := by
  induction txs generalizing deps feesTotal volume consumed records with
  | nil =>
    cases result
    exact ⟨⟨_, rfl⟩, rfl⟩
  | cons tx txs ih =>
    obtain ⟨slice, sliced, result⟩ := Outcome.bind_eq_ok.mp result
    obtain ⟨⟨record, middle⟩, analyzed, result⟩ := Outcome.bind_eq_ok.mp result
    obtain ⟨fees, addFee, result⟩ := Outcome.bind_eq_ok.mp result
    obtain ⟨sum, addSum, result⟩ := Outcome.bind_eq_ok.mp result
    obtain ⟨⟨others, _⟩, atRest, shape⟩ := Outcome.bind_eq_ok.mp result
    cases shape
    split at sliced
    · cases sliced
      obtain ⟨analyzed, taken⟩ := analyzeTxIn_eq_ok.mp analyzed
      obtain ⟨⟨totals, recorded⟩, later⟩ := ih atRest
      rw [spending, analyzeSpending, analyzed, Outcome.ok_bind, addFee, Outcome.ok_bind, addSum, Outcome.ok_bind, recorded,
        List.flatMap_cons, Arena.reserveArrays_append, taken]
      exact ⟨⟨totals, rfl⟩, later⟩
    · cases sliced

/-- The loop returns when the analyses do and their memory fits. -/
theorem analyzeTxs_eq_ok {arena : Arena} {txs : List Tx} {deps : List TxOut} {feesTotal volume consumed used : Nat}
    {records : List SerializedTx} (room : (txs.map Tx.txinCount).sum ≤ deps.length) :
    analyzeTxs p scripts arena header txs deps feesTotal volume consumed = .ok (records, used) ↔
      (∃ totals, analyzeSpending p scripts header (spending txs deps) feesTotal volume = .ok (records, totals)) ∧
        arena.reserveArrays ((spending txs deps).flatMap fun pair =>
          analyzeTxArrays pair.1 pair.2 header.timestamp.toUInt64) consumed = .ok used := by
  refine ⟨analyzeTxs_spending, ?_⟩
  induction txs generalizing deps feesTotal volume consumed records with
  | nil =>
    rintro ⟨⟨totals, recorded⟩, taken⟩
    cases recorded
    cases taken
    rfl
  | cons tx txs ih =>
    rw [List.map_cons, List.sum_cons] at room
    have enough : tx.txinCount ≤ deps.length := by omega
    have left : (txs.map Tx.txinCount).sum ≤ (deps.drop tx.txinCount).length := by
      rw [List.length_drop]
      omega
    rw [spending, List.flatMap_cons, Arena.reserveArrays_append]
    rintro ⟨⟨totals, recorded⟩, taken⟩
    obtain ⟨record, analyzed, recorded⟩ := Outcome.bind_eq_ok.mp recorded
    obtain ⟨fees, addFee, recorded⟩ := Outcome.bind_eq_ok.mp recorded
    obtain ⟨sum, addSum, recorded⟩ := Outcome.bind_eq_ok.mp recorded
    obtain ⟨⟨others, _⟩, atRest, shape⟩ := Outcome.bind_eq_ok.mp recorded
    cases shape
    obtain ⟨middle, first, later⟩ := Outcome.bind_eq_ok.mp taken
    rw [analyzeTxs, if_pos enough, Outcome.ok_bind, analyzeTxIn_eq_ok.mpr ⟨analyzed, first⟩, Outcome.ok_bind]
    dsimp only
    rw [addFee, Outcome.ok_bind, addSum, Outcome.ok_bind, ih left ⟨⟨_, atRest⟩, later⟩]
    rfl

/-- Each record is the analysis of its transaction with the outputs it spends. -/
theorem analyzeSpending_records {pairs : List (Tx × List TxOut)} {feesTotal volume : Nat} {records : List SerializedTx}
    {totals : Nat × Nat} (result : analyzeSpending p scripts header pairs feesTotal volume = .ok (records, totals)) :
    List.Forall₂ (fun pair record =>
      analyzeTx p scripts header.hash pair.1 pair.2 header.timestamp.toUInt64 = .ok record) pairs records := by
  induction pairs generalizing feesTotal volume records totals with
  | nil =>
    cases result
    exact .nil
  | cons pair pairs ih =>
    obtain ⟨record, analyzed, result⟩ := Outcome.bind_eq_ok.mp result
    obtain ⟨_, _, result⟩ := Outcome.bind_eq_ok.mp result
    obtain ⟨_, _, result⟩ := Outcome.bind_eq_ok.mp result
    obtain ⟨⟨others, _⟩, atRest, shape⟩ := Outcome.bind_eq_ok.mp result
    cases shape
    exact .cons analyzed (ih atRest)

theorem spending_le (txs : List Tx) (deps : List TxOut) : ∀ pair ∈ spending txs deps, pair.2.length ≤ pair.1.txins.length := by
  induction txs generalizing deps with
  | nil => exact fun _ member => (List.not_mem_nil member).elim
  | cons tx txs ih =>
    exact List.forall_mem_cons.mpr ⟨(List.length_take_le _ _).trans (txinCount_le tx), ih _⟩

theorem analyzesBlock_of_records {block : Block} {deps : List TxOut} {feesTotal volume : Nat} {records : List SerializedTx}
    {totals : Nat × Nat}
    (result : analyzeSpending p scripts block.header (spending block.txs deps) feesTotal volume = .ok (records, totals)) :
    AnalyzesBlock p scripts block ⟨block.header.hash, records⟩ := by
  refine ⟨rfl, ?_⟩
  have analyzed := (List.forall₂_and_left _ _).mpr ⟨spending_le block.txs deps, analyzeSpending_records result⟩
  have each := analyzed.imp fun pair record found => show AnalyzesTx p scripts block.header pair.1 record from ⟨pair.2, found⟩
  rwa [← List.forall₂_map_left_iff, spending_txs] at each

/-- With overflow checks the loop gets through when the amounts fit. -/
theorem analyzeSpending_dev {pairs : List (Tx × List TxOut)} {feesTotal volume : Nat} (fees : feesTotal < 2 ^ 64)
    (total : volume < 2 ^ 64) :
    (∃ result, analyzeSpending .dev scripts header pairs feesTotal volume = .ok result) ↔
      (∀ pair ∈ pairs, pair.1.isCoinbase = false → valueOf pair.2 < 2 ^ 64 ∧ valueOf pair.1.txouts ≤ valueOf pair.2) ∧
        feesTotal + (pairs.map feeOf).sum < 2 ^ 64 ∧
          volume + (pairs.map fun pair => valueOf pair.1.txouts).sum < 2 ^ 64 ∧
            ∀ pair ∈ pairs, ScriptsReturn scripts header.timestamp.toUInt64 pair := by
  induction pairs generalizing feesTotal volume with
  | nil => simpa [analyzeSpending] using ⟨fees, total⟩
  | cons pair pairs ih =>
    obtain ⟨tx, deps⟩ := pair
    simp only [analyzeSpending, List.map_cons, List.sum_cons, List.forall_mem_cons]
    constructor
    · intro ⟨records, result⟩
      obtain ⟨record, analyzed, result⟩ := Outcome.bind_eq_ok.mp result
      obtain ⟨fees', addFee, result⟩ := Outcome.bind_eq_ok.mp result
      obtain ⟨volume', addSum, result⟩ := Outcome.bind_eq_ok.mp result
      obtain ⟨rest, atRest, _⟩ := Outcome.bind_eq_ok.mp result
      obtain ⟨balanced, _, returns⟩ := analyzeTx_dev.mp ⟨record, analyzed⟩
      obtain ⟨fee, sum⟩ := analyzeTx_dev_amounts analyzed
      obtain ⟨fitsFee, rfl⟩ := Profile.dev_add_eq_ok.mp addFee
      obtain ⟨fitsSum, rfl⟩ := Profile.dev_add_eq_ok.mp addSum
      obtain ⟨others, feesLeft, volumeLeft, returnLeft⟩ := (ih fitsFee fitsSum).mp ⟨rest, atRest⟩
      exact ⟨⟨balanced, others⟩, by omega, by omega, returns, returnLeft⟩
    · intro ⟨⟨balanced, others⟩, feesLeft, volumeLeft, returns, returnLeft⟩
      obtain ⟨record, analyzed⟩ := (@analyzeTx_dev scripts header.hash tx deps header.timestamp.toUInt64).mpr
        ⟨balanced, by omega, returns⟩
      obtain ⟨fee, sum⟩ := analyzeTx_dev_amounts analyzed
      have fitsFee : feesTotal + record.fee.toNat < 2 ^ 64 := by omega
      have fitsSum : volume + record.txoutsSum.toNat < 2 ^ 64 := by omega
      obtain ⟨rest, atRest⟩ := (ih fitsFee fitsSum).mpr ⟨others, by omega, by omega, returnLeft⟩
      refine ⟨(record :: rest.1, rest.2), ?_⟩
      rw [analyzed, Outcome.ok_bind, Profile.add_of_lt fitsFee, Outcome.ok_bind, Profile.add_of_lt fitsSum,
        Outcome.ok_bind, atRest]
      rfl

theorem analyzeSpending_release {pairs : List (Tx × List TxOut)} {feesTotal volume : Nat} :
    (∃ result, analyzeSpending .release scripts header pairs feesTotal volume = .ok result) ↔
      ∀ pair ∈ pairs, ScriptsReturn scripts header.timestamp.toUInt64 pair := by
  induction pairs generalizing feesTotal volume with
  | nil => simp [analyzeSpending]
  | cons pair pairs ih =>
    obtain ⟨tx, deps⟩ := pair
    simp only [analyzeSpending, List.forall_mem_cons]
    constructor
    · intro ⟨records, result⟩
      obtain ⟨record, analyzed, result⟩ := Outcome.bind_eq_ok.mp result
      obtain ⟨_, _, result⟩ := Outcome.bind_eq_ok.mp result
      obtain ⟨_, _, result⟩ := Outcome.bind_eq_ok.mp result
      obtain ⟨rest, atRest, _⟩ := Outcome.bind_eq_ok.mp result
      exact ⟨analyzeTx_release.mp ⟨record, analyzed⟩, ih.mp ⟨rest, atRest⟩⟩
    · intro ⟨returns, returnLeft⟩
      obtain ⟨record, analyzed⟩ := (@analyzeTx_release scripts header.hash tx deps _).mpr returns
      obtain ⟨fees', addFee⟩ := @Profile.release_add 64 feesTotal record.fee.toNat
      obtain ⟨volume', addSum⟩ := @Profile.release_add 64 volume record.txoutsSum.toNat
      obtain ⟨rest, atRest⟩ := (@ih fees' volume').mpr returnLeft
      refine ⟨(record :: rest.1, rest.2), ?_⟩
      rw [analyzed, Outcome.ok_bind, addFee, Outcome.ok_bind, addSum, Outcome.ok_bind, atRest]
      rfl

/-! The writing. -/

theorem mergeAmends_release (merged amends : List (Bytes × Int64)) :
    ∃ result, mergeAmends .release merged amends = .ok result := by
  induction amends generalizing merged with
  | nil => exact ⟨_, by rw [mergeAmends]⟩
  | cons amend rest ih =>
    cases merged with
    | nil =>
      obtain ⟨result, atRest⟩ := ih [amend]
      exact ⟨result, by rw [mergeAmends, atRest]⟩
    | cons last merged =>
      have sum : addI64 .release last.2 amend.2 = .ok (last.2 + amend.2) := by simp [addI64]
      rw [mergeAmends, sum, Outcome.ok_bind]
      split
      · exact ih _
      · exact ih _

/-- `write_analyzed_txs` of one block panics only in the merging of its amends. -/
theorem arrays_single {block : AnalyzedBlock} :
    (∃ a, arrays p [block] = .ok a) ↔ ∀ tx ∈ block.txs, ∃ merged, mergeAmends p [] (tx.addressAmends.getD []) = .ok merged := by
  have only : (∃ a, arrays p [block] = .ok a) ↔ ∃ amends, Outcome.flatMapM (blockAmends p) [block] = .ok amends := by
    simp only [arrays, Outcome.bind_eq_ok, Outcome.pure_def, Outcome.ok.injEq]
    constructor
    · intro ⟨_, amends, found, _⟩
      exact ⟨amends, found⟩
    · intro ⟨amends, found⟩
      exact ⟨_, amends, found, rfl⟩
  rw [only, Outcome.exists_flatMapM]
  simp only [List.mem_singleton, forall_eq, blockAmends, Outcome.exists_flatMapM, Outcome.bind_eq_ok, Outcome.pure_def,
    Outcome.ok.injEq]
  refine forall_congr' fun tx => forall_congr' fun _ => ?_
  constructor
  · intro ⟨_, merged, found, _⟩
    exact ⟨merged, found⟩
  · intro ⟨merged, found⟩
    exact ⟨_, merged, found, rfl⟩

theorem amendsOf_of_analyzeTx {blockHash : Hash} {tx : Tx} {deps : List TxOut} {timestamp : UInt64} {record : SerializedTx}
    (result : analyzeTx p scripts blockHash tx deps timestamp = .ok record) :
    amendsOf scripts timestamp (tx, deps) = record.addressAmends.getD [] := by
  rw [amendsOf, (analyzeTx_parts result).2]

/-- Both halves of the work on the amounts get through when they fit. -/
theorem analyzed_iff {pairs : List (Tx × List TxOut)} {hash : Hash} :
    (∃ records totals, analyzeSpending p scripts header pairs 0 0 = .ok (records, totals) ∧
        ∃ a, arrays p [⟨hash, records⟩] = .ok a) ↔
      (∀ pair ∈ pairs, ScriptsReturn scripts header.timestamp.toUInt64 pair) ∧ (p = .dev → AmountsFit pairs) ∧
        (p = .dev → ∀ pair ∈ pairs, DeltasFit scripts header.timestamp.toUInt64 pair) := by
  have merges : ∀ {records totals}, analyzeSpending p scripts header pairs 0 0 = .ok (records, totals) →
      ((∃ a, arrays p [⟨hash, records⟩] = .ok a) ↔ ∀ pair ∈ pairs, ∃ merged,
        mergeAmends p [] (amendsOf scripts header.timestamp.toUInt64 pair) = .ok merged) := by
    intro records totals analyzed
    rw [arrays_single]
    refine (forall_mem_iff_of_pairs (analyzeSpending_records analyzed) fun pair record found => ?_).symm
    rw [amendsOf_of_analyzeTx found]
  cases p with
  | dev =>
    have amounts := @analyzeSpending_dev scripts header pairs 0 0 (Nat.two_pow_pos 64) (Nat.two_pow_pos 64)
    simp only [Nat.zero_add] at amounts
    constructor
    · intro ⟨records, totals, analyzed, written⟩
      obtain ⟨balanced, fees, volume, returns⟩ := amounts.mp ⟨_, analyzed⟩
      exact ⟨returns, fun _ => ⟨balanced, fees, volume⟩, fun _ => (merges analyzed).mp written⟩
    · intro ⟨returns, fits, deltas⟩
      obtain ⟨balanced, fees, volume⟩ := fits rfl
      obtain ⟨⟨records, totals⟩, analyzed⟩ := amounts.mpr ⟨balanced, fees, volume, returns⟩
      exact ⟨records, totals, analyzed, (merges analyzed).mpr (deltas rfl)⟩
  | release =>
    constructor
    · intro ⟨records, totals, analyzed, _⟩
      exact ⟨analyzeSpending_release.mp ⟨_, analyzed⟩, nofun, nofun⟩
    · intro ⟨returns, _, _⟩
      obtain ⟨⟨records, totals⟩, analyzed⟩ := (@analyzeSpending_release scripts header pairs 0 0).mpr returns
      exact ⟨records, totals, analyzed, (merges analyzed).mpr fun pair _ => mergeAmends_release [] _⟩

/-- The memory of the writing, from the transactions. -/
theorem writeAnalyzedTxsArrays_single {pairs : List (Tx × List TxOut)} {hash : Hash} {records : List SerializedTx}
    {totals : Nat × Nat} (analyzed : analyzeSpending p scripts header pairs 0 0 = .ok (records, totals)) :
    writeAnalyzedTxsArrays [⟨hash, records⟩] = writeArrays [pairs.length] (pairs.map fun pair => pair.1.txinCount).sum
      (pairs.map fun pair => (amendsOf scripts header.timestamp.toUInt64 pair).length).sum := by
  have related := analyzeSpending_records analyzed
  have spends : List.Forall₂ (fun (record : SerializedTx) (pair : Tx × List TxOut) =>
      (record.spentTxos.getD []).length = pair.1.txinCount) records pairs := by
    refine related.flip.imp fun record pair found => ?_
    rw [(analyzeTx_parts found).1, Tx.txinCount]
    cases pair.1.isCoinbase with
    | true => rfl
    | false => exact List.length_map _
  have amends : List.Forall₂ (fun (record : SerializedTx) (pair : Tx × List TxOut) => (record.addressAmends.getD []).length =
      (amendsOf scripts header.timestamp.toUInt64 pair).length) records pairs := by
    refine related.flip.imp fun record pair found => ?_
    rw [amendsOf_of_analyzeTx found]
  simp only [writeAnalyzedTxsArrays, List.map_cons, List.map_nil, List.sum_cons, List.sum_nil, Nat.add_zero,
    AnalyzedBlock.spendsCount, AnalyzedBlock.amendsCount, related.length_eq,
    List.forall₂_eq_eq_eq ▸ List.forall₂_map_left_iff.mpr (List.forall₂_map_right_iff.mpr spends),
    List.forall₂_eq_eq_eq ▸ List.forall₂_map_left_iff.mpr (List.forall₂_map_right_iff.mpr amends)]

/-- The work on a block returns when its transactions allow it and its memory fits. -/
theorem workable_iff {arena : Arena} {block : Block} {deps : List TxOut}
    (room : (block.txs.map Tx.txinCount).sum ≤ deps.length) :
    (∃ records used middle taken, analyzeTxs p scripts arena block.header block.txs deps 0 0 0 = .ok (records, used) ∧
      arena.reserveArrays [(sliceLayout, 1)] used = .ok middle ∧
        arraysIn p arena [⟨block.header.hash, records⟩] middle = .ok taken) ↔
      Workable p scripts arena block.header.timestamp.toUInt64 (spending block.txs deps) := by
  have fits : ∀ {records totals}, analyzeSpending p scripts block.header (spending block.txs deps) 0 0 = .ok (records, totals) →
      ((∃ used middle taken, arena.reserveArrays ((spending block.txs deps).flatMap fun pair =>
          analyzeTxArrays pair.1 pair.2 block.header.timestamp.toUInt64) 0 = .ok used ∧
        arena.reserveArrays [(sliceLayout, 1)] used = .ok middle ∧
          arena.reserveArrays (writeAnalyzedTxsArrays [⟨block.header.hash, records⟩]) middle = .ok taken) ↔
        arena.Fits 0 ((blockArrays scripts block.header.timestamp.toUInt64 (spending block.txs deps)).map .array)) := by
    intro records totals analyzed
    rw [← Arena.exists_reserveArrays, blockArrays, writeAnalyzedTxsArrays_single analyzed]
    simp only [Arena.reserveArrays_append, Outcome.bind_eq_ok]
    constructor
    · intro ⟨used, middle, taken, first, second, third⟩
      exact ⟨taken, middle, ⟨used, first, second⟩, third⟩
    · intro ⟨taken, middle, ⟨used, first, second⟩, third⟩
      exact ⟨used, middle, taken, first, second, third⟩
  constructor
  · intro ⟨records, used, middle, ⟨a, taken⟩, analyzed, slice, written⟩
    obtain ⟨⟨totals, analyzed⟩, first⟩ := (analyzeTxs_eq_ok room).mp analyzed
    obtain ⟨collected, made, written⟩ := Outcome.bind_eq_ok.mp written
    obtain ⟨consumed, third, shape⟩ := Outcome.bind_eq_ok.mp written
    obtain ⟨returns, amounts, deltas⟩ := (@analyzed_iff p scripts block.header _ block.header.hash).mp
      ⟨records, totals, analyzed, collected, made⟩
    exact ⟨returns, amounts, deltas, (fits analyzed).mp ⟨used, middle, consumed, first, slice, third⟩⟩
  · intro workable
    obtain ⟨records, totals, analyzed, collected, made⟩ := (@analyzed_iff p scripts block.header _ block.header.hash).mpr
      ⟨workable.returns, workable.amounts, workable.deltas⟩
    obtain ⟨used, middle, taken, first, slice, third⟩ := (fits analyzed).mpr workable.memory
    refine ⟨records, used, middle, (collected, taken), (analyzeTxs_eq_ok room).mpr ⟨⟨totals, analyzed⟩, first⟩, slice, ?_⟩
    rw [arraysIn, made, Outcome.ok_bind, third]
    rfl

end Analysis

/-! The marking and the handler. -/

theorem Chain.exists_count {c : Chain} (held : c.topHeader.number = 0 ∨ c.WellFormed) :
    ∃ count, c.calculateDownloadedBlocks = .ok count := by
  rcases held with bottom | wf
  · rw [Chain.calculateDownloadedBlocks, bottom, Chain.calculateDownloadedBlocksLoop, if_pos bottom]
    split
    · exact ⟨_, rfl⟩
    · exact ⟨_, rfl⟩
  · exact wf.calculateDownloadedBlocks

namespace Chainman

variable {w w' : Chainman}

theorem Marks.held {marked : List Hash} (marks : Marks w w' marked)
    (held : w.chain.topHeader.number = 0 ∨ w.chain.WellFormed) (header : w'.chain.topHeader.header = w.chain.topHeader.header)
    (number : w'.chain.topHeader.number = w.chain.topHeader.number) :
    w'.chain.topHeader.number = 0 ∨ w'.chain.WellFormed :=
  held.imp number.trans fun wf => marks.wellFormed wf header number

/-- A known block is marked without a panic. -/
theorem exists_markAsDownloaded (held : w.chain.topHeader.number = 0 ∨ w.chain.WellFormed)
    (knownTop : w.chain.Known w.chain.topHeader.header.hash) {hash : Hash} (known : w.chain.Known hash)
    (coinbaseAscii : Bytes) : ∃ w', w.markAsDownloaded [(hash, coinbaseAscii)] = .ok w' := by
  obtain ⟨b, stored⟩ := Option.isSome_iff_exists.mp known
  obtain ⟨marked, all⟩ : ∃ marked, w.markAll [(hash, coinbaseAscii)] = some marked := by
    simp only [markAll, markOne, stored, Option.map_some, Option.bind_some]
    exact ⟨_, rfl⟩
  have marks := marks_of_markAll all
  have sameTop := markAll_topHeader all
  obtain ⟨top, atTop⟩ := Option.isSome_iff_exists.mp (marks.known_iff.mpr knownTop)
  rw [← sameTop] at atTop
  have synced : Marks w (marked.setTop { marked.chain.topHeader with fetchedFull := top.fetchedFull }) [hash] :=
    ⟨marks.inserts, marks.known, marks.keeps, marks.only⟩
  obtain ⟨count, counted⟩ := Chain.exists_count
    (synced.held held (congrArg (·.header) sameTop) (congrArg (·.number) sameTop))
  simp only [markAsDownloaded, all, Outcome.unwrap_some, Outcome.ok_bind, atTop, counted, Outcome.pure_def]
  exact ⟨_, rfl⟩

end Chainman

section Handler

variable {p : Profile} {sha256 : Bytes → Hash} {scripts : Scripts} {env : Surroundings} {block : Block}
  {strategy : FrontPageDataUpdateStrategy} {w : Chainman}

/-- An applicable block is written and marked. -/
theorem applyBlock_of_applicable (held : w.chain.topHeader.number = 0 ∨ w.chain.WellFormed)
    (knownTop : w.chain.Known w.chain.topHeader.header.hash) (applicable : Applicable p scripts env block w.chain) :
    ∃ w' analyzed, AnalyzesBlock p scripts block analyzed ∧ (∃ a, arrays p [analyzed] = .ok a) ∧
      w.markAsDownloaded [(block.header.hash, coinbaseScript block)] = .ok w' ∧
      applyBlock p scripts env block strategy w =
        (w', [.wroteAnalyzedTxs analyzed, .markedAsDownloaded block.header.hash], env.updateFrontpage strategy) := by
  obtain ⟨first, atFirst, inputs⟩ := applicable.coinbase
  obtain ⟨deps, found, workable⟩ := applicable.found
  have length := dependencies_length found
  rw [length_spends] at length
  obtain ⟨pending, handles, owned, spawned, awaited, assembled⟩ := (@dependencies_eq_some _ _ _ [] _ _ rfl).mp found
  obtain ⟨records, used, middle, taken, analyzed, slice, written⟩ := (workable_iff (Nat.le_of_eq length.symm)).mpr workable
  obtain ⟨coinbase, atCoinbase⟩ := Option.isSome_iff_exists.mp (List.isSome_head?.mpr inputs)
  have script : coinbaseScript block = coinbase.sigScript := by
    rw [coinbaseScript, Option.mem_def.mp atFirst, Option.bind_some, atCoinbase]
    rfl
  obtain ⟨w', marked⟩ := Chainman.exists_markAsDownloaded held knownTop applicable.known (coinbaseScript block)
  obtain ⟨⟨totals, recorded⟩, _⟩ := (analyzeTxs_eq_ok (Nat.le_of_eq length.symm)).mp analyzed
  obtain ⟨collected, arrays, _⟩ := Outcome.bind_eq_ok.mp written
  refine ⟨w', ⟨block.header.hash, records⟩, analyzesBlock_of_records recorded, ⟨collected, arrays⟩, marked, ?_⟩
  have both : (assembleDeps owned pending >>= analyzeBlock p scripts env.analyzedArena block) =
      .ok (⟨block.header.hash, records⟩, coinbaseScript block, middle) := by
    rw [assembled, Outcome.ok_bind, analyzeBlock, Option.mem_def.mp atFirst, Outcome.unwrap_some, Outcome.ok_bind, analyzed,
      Outcome.ok_bind, script]
    dsimp only
    rw [atCoinbase, Outcome.unwrap_some, Outcome.ok_bind, slice]
    rfl
  simp only [applyBlock, spawned, awaited, both, written, marked]

end Handler

/-! A block on the queue of a new process, with one transaction that spends an output
from the database. -/

def quietScripts : Scripts := ⟨fun _ _ => .ok 0, fun _ _ _ => .ok none⟩

def analysisArena : Arena := ⟨4096, 8388608, by decide⟩

/-- Surroundings in which each lookup returns the same. -/
def surroundings (txouts : Option (List TxOut)) : Surroundings :=
  ⟨fun _ => txouts, analysisArena, rfl, fun _ => .ok ()⟩

end Bitlens

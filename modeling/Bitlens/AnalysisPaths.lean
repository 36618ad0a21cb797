import Bitlens.AppliedBlocks
import Bitlens.Dependencies

namespace Bitlens
open Lib

/-! The loops of `process_block` and `apply_block` over the transactions. The fee rates,
which are floating point, are left out. -/

/-- What a loop has made so far, and the memory consumed. -/
structure BlockTotals where
  analyzed : List SerializedTx
  feesTotal : Nat
  volume : Nat
  consumed : Nat

/-- What is stored for a block. -/
structure BlockAnalysis where
  analyzed : List SerializedTx
  feesTotal : Nat
  volume : Nat
  txsCount : Nat
  coinbaseAscii : Bytes

/-- The dependencies of the calls of `analyze_tx`, also of one that panics, and the result. -/
abbrev Calls (α : Type) := List (List TxOut) × Outcome α

section Loops

variable (p : Profile) (scripts : Scripts) (arena : Arena) (header : BlockHeaderOwned)

/-- The loop of `process_block`; the index runs through all outputs loaded from disk. -/
def processTxs (s : Pipeline) (depsFromDisk : List TxOut) : List Tx → Nat → BlockTotals → Calls BlockTotals
  | [], _, totals => ([], .ok totals)
  | tx :: txs, depsFromDiskIndex, totals =>
    match s.assembleTxins depsFromDisk tx.txins depsFromDiskIndex with
    | none => ([], .fault)
    | some (deps, depsFromDiskIndex) =>
      match (do
        let (analyzed, consumed) ←
          analyzeTxIn p scripts arena header.hash tx deps header.timestamp.toUInt64 totals.consumed
        let feesTotal ← p.add 64 totals.feesTotal analyzed.fee.toNat
        let volume ← p.add 64 totals.volume analyzed.txoutsSum.toNat
        pure ⟨totals.analyzed ++ [analyzed], feesTotal, volume, consumed⟩ : Outcome BlockTotals) with
      | .ok next =>
        let (calls, result) := processTxs s depsFromDisk txs depsFromDiskIndex next
        (deps :: calls, result)
      | _ => ([deps], .fault)

/-- The loop of `apply_block`, which takes slices of the dependencies. -/
def applyTxs : List Tx → List TxOut → BlockTotals → Calls BlockTotals
  | [], _, totals => ([], .ok totals)
  | tx :: txs, deps, totals =>
    if tx.txinCount ≤ deps.length then
      match (do
        let (analyzed, used) ← analyzeTxIn p scripts arena header.hash tx (deps.take tx.txinCount)
          header.timestamp.toUInt64 totals.consumed
        let feesTotal ← p.add 64 totals.feesTotal analyzed.fee.toNat
        let volume ← p.add 64 totals.volume analyzed.txoutsSum.toNat
        pure ⟨totals.analyzed ++ [analyzed], feesTotal, volume, used⟩ : Outcome BlockTotals) with
      | .ok next =>
        let (calls, result) := applyTxs txs (deps.drop tx.txinCount) next
        (deps.take tx.txinCount :: calls, result)
      | _ => ([deps.take tx.txinCount], .fault)
    else ([], .fault)

end Loops

def serializedTxLayout : Layout := ⟨120, 8⟩

/-- `process_block` copies the bytes of the coinbase behind the loop. -/
def finishProcessed (arena : Arena) (block : Block) (totals : BlockTotals) : Outcome BlockAnalysis := do
  let first ← Outcome.unwrap block.txs.head?
  let coinbase ← Outcome.unwrap first.txins.head?
  let _ ← arena.reserveArrays [(u8Layout, coinbase.sigScript.length)] totals.consumed
  pure ⟨totals.analyzed, totals.feesTotal, totals.volume, block.txs.length, coinbase.sigScript⟩

/-- `apply_block` takes a slice of one reference to them. -/
def finishApplied (arena : Arena) (block : Block) (totals : BlockTotals) : Outcome BlockAnalysis := do
  let first ← Outcome.unwrap block.txs.head?
  let coinbase ← Outcome.unwrap first.txins.head?
  let _ ← arena.reserveArrays [(sliceLayout, 1)] totals.consumed
  pure ⟨totals.analyzed, totals.feesTotal, totals.volume, block.txs.length, coinbase.sigScript⟩

/-- `fetch_dependency_and_insert`; `none` is a panic of the task. -/
def fetchDependency (disk : Hash → Option (List TxOut)) (txin : TxIn) : Option TxOut :=
  (disk txin.prevoutHash).bind fun txouts => txouts[txin.prevoutIndex.toNat]?

section Paths

variable (p : Profile) (scripts : Scripts) (arena : Arena)

/-- `process_block`, with what was consumed of the batch's arena, while no other task writes
to the state or takes memory; `none` when a lookup failed. A block without transactions
panics. -/
def processBlock (s : Pipeline) (consumed : Nat) (block : Block) : Option (Calls BlockAnalysis) :=
  let loadedDeps := (s.missing block).map (fetchDependency s.disk)
  if loadedDeps.all Option.isSome then
    match arena.reserveArrays [(serializedTxLayout, block.txs.length)] consumed with
    | .ok consumed =>
      if block.txs = [] then some ([], .fault)
      else
        let (calls, totals) :=
          processTxs p scripts arena block.header s (loadedDeps.filterMap id) block.txs 0 ⟨[], 0, 0, consumed⟩
        some (calls, totals >>= finishProcessed arena block)
    | _ => some ([], .fault)
  else none

/-- What `apply_block` analyses in its own arena; `none` when a lookup failed. -/
def applyAnalysis (disk : Hash → Option (List TxOut)) (block : Block) : Option (Calls BlockAnalysis) :=
  match pendingDeps (selfTxs block) block.spends [] with
  | .ok (pending, handles) =>
    match ownedDeps (fun task => handles[task]?.bind fun txin => disk txin.prevoutHash) 0 handles with
    | none => none
    | some owned =>
      match assembleDeps owned pending with
      | .ok deps =>
        if block.txs = [] then some ([], .fault)
        else
          let (calls, totals) := applyTxs p scripts arena block.header block.txs deps ⟨[], 0, 0, 0⟩
          some (calls, totals >>= finishApplied arena block)
      | _ => some ([], .fault)
  | _ => some ([], .fault)

end Paths

/-- Every place that has the transaction of an input has this output for it, and both
paths look in one that has. -/
structure SameOutput (s : Pipeline) (disk : Hash → Option (List TxOut)) (block : Block) (txin : TxIn) (dep : TxOut) :
    Prop where
  inMemory : ∀ entry, s.currentTxouts txin.prevoutHash = some entry ∨ s.previousTxouts txin.prevoutHash = some entry →
    entry.generation = s.generation entry.arena ∧ entry.txouts[txin.prevoutIndex.toNat]? = some dep
  onDisk : ∀ txouts, s.disk txin.prevoutHash = some txouts ∨ disk txin.prevoutHash = some txouts →
    txouts[txin.prevoutIndex.toNat]? = some dep
  inBlock : ∀ tx ∈ block.txs, tx.hash = txin.prevoutHash → tx.txouts[txin.prevoutIndex.toNat]? = some dep
  synced : (s.find txin.prevoutHash).isSome ∨ (s.disk txin.prevoutHash).isSome
  applied : (∃ tx ∈ block.txs, tx.hash = txin.prevoutHash) ∨ (disk txin.prevoutHash).isSome

/-- Only the first transaction is a coinbase, and the inputs of the others all resolve. -/
structure Analysable (s : Pipeline) (disk : Hash → Option (List TxOut)) (block : Block) : Prop where
  coinbase : ∃ first rest, block.txs = first :: rest ∧ first.isCoinbase = true ∧
    ∀ tx ∈ rest, ∀ txin ∈ tx.txins, txin.prevoutHash ≠ emptyHash
  resolves : ∀ tx ∈ block.txs, ∀ txin ∈ dependents tx.txins, ∃ dep, SameOutput s disk block txin dep

/-- Each transaction has an output for each of its inputs that is not empty, that of the input. -/
def Provided (s : Pipeline) (disk : Hash → Option (List TxOut)) (block : Block) (deps : List (List TxOut)) : Prop :=
  List.Forall₂ (fun tx txDeps => List.Forall₂ (SameOutput s disk block) (dependents tx.txins) txDeps) block.txs deps

/-- Both paths store the same for the block, from the same calls of `analyze_tx`, each with
the outputs of its inputs; or both panic. -/
def SameAnalysis (s : Pipeline) (disk : Hash → Option (List TxOut)) (block : Block)
    (processed applied : Option (Calls BlockAnalysis)) : Prop :=
  ∃ calls others result, processed = some (calls, result) ∧ applied = some (others, result) ∧
    ∀ analysis, result = .ok analysis → calls = others ∧ analysis.txsCount = block.txs.length ∧ Provided s disk block calls

/-- What the analyses of the transactions take. -/
def analysisArrays (timestamp : UInt64) (pairs : List (Tx × List TxOut)) : List (Layout × Nat) :=
  pairs.flatMap fun pair => analyzeTxArrays pair.1 pair.2 timestamp

/-- The memory of `process_block` fits into what is left of the batch's arena. -/
def FitsProcessed (arena : Arena) (consumed : Nat) (block : Block) (deps : List (List TxOut)) : Prop :=
  arena.Fits consumed (((serializedTxLayout, block.txs.length) ::
    analysisArrays block.header.timestamp.toUInt64 (block.txs.zip deps) ++
      [(u8Layout, (coinbaseScript block).length)]).map .array)

/-- The memory of `apply_block` up to the analysis fits into its arena. -/
def FitsApplied (arena : Arena) (block : Block) (deps : List (List TxOut)) : Prop :=
  arena.Fits 0 ((analysisArrays block.header.timestamp.toUInt64 (block.txs.zip deps) ++ [(sliceLayout, 1)]).map .array)

instance (arena : Arena) (consumed : Nat) (block : Block) (deps : List (List TxOut)) :
    Decidable (FitsProcessed arena consumed block deps) :=
  inferInstanceAs (Decidable (arena.Fits _ _))

instance (arena : Arena) (block : Block) (deps : List (List TxOut)) : Decidable (FitsApplied arena block deps) :=
  inferInstanceAs (Decidable (arena.Fits _ _))

/-- Apart from the memory the analysis of the transactions returns. -/
def Analyses (p : Profile) (scripts : Scripts) (block : Block) (deps : List (List TxOut)) : Prop :=
  (∀ pair ∈ block.txs.zip deps, ScriptsReturn scripts block.header.timestamp.toUInt64 pair) ∧
    (p = .dev → AmountsFit (block.txs.zip deps))

variable {p : Profile} {scripts : Scripts} {arena synced applied : Arena} {consumed : Nat} {header : BlockHeaderOwned}
  {s : Pipeline} {disk : Hash → Option (List TxOut)} {block : Block} {txin : TxIn} {dep other : TxOut}

/-! Both loops analyse the transactions with given dependencies. -/

section Loops

variable (p : Profile) (scripts : Scripts) (arena : Arena) (header : BlockHeaderOwned)

def analyzeAll : List (Tx × List TxOut) → BlockTotals → Calls BlockTotals
  | [], totals => ([], .ok totals)
  | (tx, deps) :: rest, totals =>
    match (do
      let (analyzed, consumed) ← analyzeTxIn p scripts arena header.hash tx deps header.timestamp.toUInt64 totals.consumed
      let feesTotal ← p.add 64 totals.feesTotal analyzed.fee.toNat
      let volume ← p.add 64 totals.volume analyzed.txoutsSum.toNat
      pure ⟨totals.analyzed ++ [analyzed], feesTotal, volume, consumed⟩ : Outcome BlockTotals) with
    | .ok next =>
      let (calls, result) := analyzeAll rest next
      (deps :: calls, result)
    | _ => ([deps], .fault)

end Loops

variable {txs : List Tx} {deps : List (List TxOut)} {totals final : BlockTotals}

theorem processTxs_eq {loaded : List TxOut} {index : Nat} (assembled : s.assembleTxs loaded txs index = some deps) :
    processTxs p scripts arena header s loaded txs index totals = analyzeAll p scripts arena header (txs.zip deps) totals := by
  induction txs generalizing index deps totals with
  | nil => rw [processTxs, List.zip_nil_left, analyzeAll]
  | cons tx txs ih =>
    rw [Pipeline.assembleTxs] at assembled
    obtain ⟨⟨first, index'⟩, atTx, assembled⟩ := Option.bind_eq_some_iff.mp assembled
    obtain ⟨others, atRest, rfl⟩ := Option.map_eq_some_iff.mp assembled
    rw [processTxs, atTx, List.zip_cons_cons, analyzeAll]
    simp only [ih atRest]

theorem applyTxs_eq (lengths : List.Forall₂ (fun tx txDeps => txDeps.length = tx.txinCount) txs deps) :
    applyTxs p scripts arena header txs deps.flatten totals = analyzeAll p scripts arena header (txs.zip deps) totals := by
  induction lengths generalizing totals with
  | nil => rw [applyTxs, List.zip_nil_left, analyzeAll]
  | @cons tx first txs deps length _ ih =>
    rw [applyTxs, List.flatten_cons, ← length, List.length_append, if_pos (Nat.le_add_right _ _), List.take_left,
      List.drop_left, List.zip_cons_cons, analyzeAll]
    simp only [ih]

/-- When the loop gets through, `analyze_tx` was called once for each transaction. -/
theorem analyzeAll_calls {pairs : List (Tx × List TxOut)}
    (result : (analyzeAll p scripts arena header pairs totals).2 = .ok final) :
    (analyzeAll p scripts arena header pairs totals).1 = pairs.map Prod.snd := by
  induction pairs generalizing totals with
  | nil => rfl
  | cons pair pairs ih =>
    obtain ⟨tx, deps⟩ := pair
    rw [analyzeAll] at result ⊢
    split at result
    · next next added => exact congrArg (deps :: ·) (ih result)
    · cases result

/-- The loop returns when the analyses do and their memory fits. -/
theorem analyzeAll_eq_ok {pairs : List (Tx × List TxOut)} :
    (analyzeAll p scripts arena header pairs totals).2 = .ok final ↔ ∃ records,
      analyzeSpending p scripts header pairs totals.feesTotal totals.volume = .ok (records, final.feesTotal, final.volume) ∧
        final.analyzed = totals.analyzed ++ records ∧
          arena.reserveArrays (analysisArrays header.timestamp.toUInt64 pairs) totals.consumed = .ok final.consumed := by
  induction pairs generalizing totals with
  | nil =>
    obtain ⟨analyzed, feesTotal, volume, consumed⟩ := totals
    obtain ⟨finalAnalyzed, finalFees, finalVolume, finalConsumed⟩ := final
    simp only [analyzeAll, analyzeSpending, analysisArrays, List.flatMap_nil, Arena.reserveArrays, Outcome.ok.injEq,
      BlockTotals.mk.injEq, Prod.mk.injEq]
    constructor
    · rintro ⟨rfl, rfl, rfl, rfl⟩
      exact ⟨[], ⟨rfl, rfl, rfl⟩, (List.append_nil _).symm, rfl⟩
    · rintro ⟨records, ⟨rfl, rfl, rfl⟩, rfl, rfl⟩
      exact ⟨(List.append_nil _).symm, rfl, rfl, rfl⟩
  | cons pair pairs ih =>
    obtain ⟨tx, deps⟩ := pair
    rw [analyzeAll]
    constructor
    · intro result
      split at result
      · next next added =>
        obtain ⟨⟨analyzed, middle⟩, atTx, added⟩ := Outcome.bind_eq_ok.mp added
        obtain ⟨feesTotal, fees, added⟩ := Outcome.bind_eq_ok.mp added
        obtain ⟨volume, sum, added⟩ := Outcome.bind_eq_ok.mp added
        cases added
        obtain ⟨record, taken⟩ := analyzeTxIn_eq_ok.mp atTx
        obtain ⟨records, others, shape, later⟩ := ih.mp result
        refine ⟨analyzed :: records, ?_, by rw [shape, List.append_assoc]; rfl, ?_⟩
        · rw [analyzeSpending, record, Outcome.ok_bind, fees, Outcome.ok_bind, sum, Outcome.ok_bind, others]
          rfl
        · rw [analysisArrays, List.flatMap_cons, Arena.reserveArrays_append, taken]
          exact later
      · cases result
    · rintro ⟨records, result, shape, taken⟩
      obtain ⟨analyzed, record, result⟩ := Outcome.bind_eq_ok.mp result
      obtain ⟨feesTotal, fees, result⟩ := Outcome.bind_eq_ok.mp result
      obtain ⟨volume, sum, result⟩ := Outcome.bind_eq_ok.mp result
      obtain ⟨⟨others, _⟩, atRest, same⟩ := Outcome.bind_eq_ok.mp result
      cases same
      rw [analysisArrays, List.flatMap_cons, Arena.reserveArrays_append] at taken
      obtain ⟨middle, first, later⟩ := Outcome.bind_eq_ok.mp taken
      rw [analyzeTxIn_eq_ok.mpr ⟨record, first⟩, Outcome.ok_bind]
      dsimp only
      rw [fees, Outcome.ok_bind, sum]
      exact ih.mpr ⟨others, atRest, by rw [shape, List.append_assoc]; rfl, later⟩

theorem analyzeAll_ne_err {pairs : List (Tx × List TxOut)} : (analyzeAll p scripts arena header pairs totals).2 ≠ .err := by
  induction pairs generalizing totals with
  | nil => exact nofun
  | cons pair pairs ih =>
    obtain ⟨tx, deps⟩ := pair
    rw [analyzeAll]
    split
    · exact ih
    · exact nofun

/-- The loop of the analysis is that of the block that is written. -/
theorem applyTxs_eq_ok {deps : List TxOut} (room : (txs.map Tx.txinCount).sum ≤ deps.length)
    (result : (applyTxs p scripts arena header txs deps totals).2 = .ok final) :
    ∃ analyzed, analyzeTxs p scripts arena header txs deps totals.feesTotal totals.volume totals.consumed =
        .ok (analyzed, final.consumed) ∧ final.analyzed = totals.analyzed ++ analyzed := by
  induction txs generalizing deps totals with
  | nil =>
    cases result
    exact ⟨[], rfl, (List.append_nil _).symm⟩
  | cons tx txs ih =>
    rw [List.map_cons, List.sum_cons] at room
    have enough : tx.txinCount ≤ deps.length := by omega
    rw [applyTxs, if_pos enough] at result
    split at result
    · next next added =>
      obtain ⟨⟨analyzed, middle⟩, atTx, added⟩ := Outcome.bind_eq_ok.mp added
      obtain ⟨feesTotal, fees, added⟩ := Outcome.bind_eq_ok.mp added
      obtain ⟨volume, sum, added⟩ := Outcome.bind_eq_ok.mp added
      cases added
      obtain ⟨others, atRest, shape⟩ := ih (by rw [List.length_drop]; omega) result
      refine ⟨analyzed :: others, ?_, by rw [shape, List.append_assoc]; rfl⟩
      rw [analyzeTxs, if_pos enough, Outcome.ok_bind, atTx, Outcome.ok_bind]
      dsimp only at atRest ⊢
      rw [fees, Outcome.ok_bind, sum, Outcome.ok_bind, atRest]
      rfl
    · cases result

/-! Both paths find the dependencies. -/

theorem SameOutput.eq (same : SameOutput s disk block txin dep) (again : SameOutput s disk block txin other) : dep = other := by
  rcases same.applied with ⟨tx, member, created⟩ | stored
  · exact Option.some.inj ((same.inBlock tx member created).symm.trans (again.inBlock tx member created))
  · obtain ⟨txouts, stored⟩ := Option.isSome_iff_exists.mp stored
    exact Option.some.inj ((same.onDisk txouts (.inr stored)).symm.trans (again.onDisk txouts (.inr stored)))

/-- In memory the output is that of the input. -/
theorem SameOutput.memory (same : SameOutput s disk block txin dep) : s.InMemory (SameOutput s disk block) txin := by
  intro entry found
  obtain ⟨live, inRange⟩ := same.inMemory entry (by
    unfold Pipeline.find at found
    split at found
    · next inCurrent => exact .inl (inCurrent.trans found)
    · exact .inr found)
  exact ⟨live, dep, inRange, same⟩

/-- What is not in memory is loaded from disk. -/
theorem SameOutput.load (same : SameOutput s disk block txin dep) (absent : (s.find txin.prevoutHash).isNone = true) :
    fetchDependency s.disk txin = some dep := by
  have onDisk := same.synced.resolve_left (by
    rw [Option.isNone_iff_eq_none.mp absent]
    exact Bool.false_ne_true)
  obtain ⟨txouts, stored⟩ := Option.isSome_iff_exists.mp onDisk
  rw [fetchDependency, stored, Option.bind_some, same.onDisk txouts (.inl stored)]

theorem SameOutput.own {source : Tx} (same : SameOutput s disk block txin dep)
    (found : selfTxs block txin.prevoutHash = some source) : source.txouts[txin.prevoutIndex.toNat]? = some dep := by
  rcases foldl_mapInsert_origin found with ⟨tx, member, hash, rfl⟩ | absent
  · exact same.inBlock tx member hash
  · cases absent

theorem SameOutput.lookup (same : SameOutput s disk block txin dep) (absent : selfTxs block txin.prevoutHash = none) :
    fetchDependency disk txin = some dep := by
  have onDisk := same.applied.resolve_left fun ⟨tx, member, hash⟩ => by
    have present : (selfTxs block tx.hash).isSome := foldl_mapInsert_isSome member
    rw [hash, absent] at present
    exact Bool.false_ne_true present
  obtain ⟨txouts, stored⟩ := Option.isSome_iff_exists.mp onDisk
  rw [fetchDependency, stored, Option.bind_some, same.onDisk txouts (.inr stored)]

section Resolve

variable {txins : List TxIn} (resolves : ∀ txin ∈ txins, ∃ dep, SameOutput s disk block txin dep)

include resolves

/-- The tasks of `apply_block` return the outputs of their inputs. -/
theorem ownedDeps_resolved (front : List TxIn) (absent : ∀ txin ∈ txins, selfTxs block txin.prevoutHash = none) :
    ∃ owned, ownedDeps (fun task => (front ++ txins)[task]?.bind fun txin => disk txin.prevoutHash) front.length txins =
      some owned ∧ List.Forall₂ (SameOutput s disk block) txins owned := by
  induction txins generalizing front with
  | nil => exact ⟨[], rfl, .nil⟩
  | cons txin rest ih =>
    obtain ⟨dep, same⟩ := resolves txin List.mem_cons_self
    have found := same.lookup (absent txin List.mem_cons_self)
    obtain ⟨owned, others, related⟩ := ih (fun txin member => resolves txin (List.mem_cons_of_mem _ member))
      (front ++ [txin]) fun txin member => absent txin (List.mem_cons_of_mem _ member)
    rw [List.append_assoc, List.singleton_append, List.length_append, List.length_singleton] at others
    refine ⟨dep :: owned, ?_, .cons same related⟩
    have task : (front ++ txin :: rest)[front.length]? = some txin := by simp
    rw [ownedDeps, others, taskOutput, task, Option.bind_some]
    exact congrArg (Option.bind · fun txout => (some owned).map (txout :: ·)) found

/-- Spawning the tasks and putting their outputs in place gives each input its output. -/
theorem pendingDeps_resolved (depsHandles : List TxIn) :
    ∃ pending more, pendingDeps (selfTxs block) txins depsHandles = .ok (pending, depsHandles ++ more) ∧
      (∀ txin ∈ more, txin ∈ txins ∧ selfTxs block txin.prevoutHash = none) ∧
        ∀ front owned, front.length = depsHandles.length → List.Forall₂ (SameOutput s disk block) more owned →
          ∃ deps, assembleDeps (front ++ owned) pending = .ok deps ∧ List.Forall₂ (SameOutput s disk block) txins deps := by
  induction txins generalizing depsHandles with
  | nil =>
    refine ⟨[], [], by rw [List.append_nil]; rfl, fun _ member => (List.not_mem_nil member).elim, fun _ _ _ _ => ?_⟩
    exact ⟨[], rfl, .nil⟩
  | cons txin rest ih =>
    obtain ⟨dep, same⟩ := resolves txin List.mem_cons_self
    have later := fun txin member => resolves txin (List.mem_cons_of_mem _ member)
    cases own : selfTxs block txin.prevoutHash with
    | some source =>
      obtain ⟨pending, more, spawned, spawnedFor, assembles⟩ := ih later depsHandles
      refine ⟨.inl dep :: pending, more, ?_, fun txin member => ?_, fun front owned length related => ?_⟩
      · rw [pendingDeps, own]
        simp only [same.own own, Outcome.unwrap_some, Outcome.ok_bind, spawned, Outcome.pure_def]
      · exact ⟨List.mem_cons_of_mem _ (spawnedFor txin member).1, (spawnedFor txin member).2⟩
      · obtain ⟨deps, assembled, right⟩ := assembles front owned length related
        refine ⟨dep :: deps, ?_, .cons same right⟩
        rw [assembleDeps, assembled]
        rfl
    | none =>
      obtain ⟨pending, more, spawned, spawnedFor, assembles⟩ := ih later (depsHandles ++ [txin])
      refine ⟨.inr depsHandles.length :: pending, txin :: more, ?_, fun other member => ?_, fun front owned length related => ?_⟩
      · rw [pendingDeps, own]
        simp only [spawned, Outcome.ok_bind, Outcome.pure_def, List.append_assoc, List.singleton_append]
      · rcases List.mem_cons.mp member with rfl | inMore
        · exact ⟨List.mem_cons_self, own⟩
        · exact ⟨List.mem_cons_of_mem _ (spawnedFor other inMore).1, (spawnedFor other inMore).2⟩
      · cases related with
        | @cons _ loaded _ owned first related =>
          obtain ⟨deps, assembled, right⟩ := assembles (front ++ [loaded]) owned
            (by rw [List.length_append, List.length_append, length]; rfl) related
          rw [List.append_assoc, List.singleton_append] at assembled
          have place : (front ++ loaded :: owned)[depsHandles.length]? = some loaded := by simp [← length]
          refine ⟨loaded :: deps, ?_, .cons first right⟩
          rw [assembleDeps, place, Outcome.unwrap_some, Outcome.ok_bind, assembled]
          rfl

/-- The lookups of `process_block` return the outputs of their inputs. -/
theorem loadedDeps_resolved : ((s.unfound txins).map (fetchDependency s.disk)).all Option.isSome = true ∧
    List.Forall₂ (SameOutput s disk block) (s.unfound txins)
      (((s.unfound txins).map (fetchDependency s.disk)).filterMap id) := by
  have each : ∀ txin ∈ s.unfound txins, ∃ dep, fetchDependency s.disk txin = some dep ∧ SameOutput s disk block txin dep := by
    intro txin member
    obtain ⟨member, absent⟩ := List.mem_filter.mp member
    obtain ⟨dep, same⟩ := resolves txin member
    exact ⟨dep, same.load absent, same⟩
  have all : ((s.unfound txins).map (fetchDependency s.disk)).all Option.isSome = true := by
    rw [List.all_map, List.all_eq_true]
    intro txin member
    obtain ⟨dep, loaded, _⟩ := each txin member
    rw [Function.comp, loaded]
    rfl
  refine ⟨all, Pipeline.forall₂_filterMap all ?_⟩
  rw [List.forall₂_map_right_iff, List.forall₂_same]
  intro txin member dep loaded
  obtain ⟨found, same, right⟩ := each txin member
  rw [← Option.some.inj (same.symm.trans loaded)]
  exact right

end Resolve

/-! The two paths. -/

theorem Tx.isCoinbase_dependents {tx : Tx} (coinbase : tx.isCoinbase = true) : dependents tx.txins = [] := by
  unfold Tx.isCoinbase at coinbase
  split at coinbase
  · next txin single =>
    rw [TxIn.isEmpty, Bool.and_eq_true, decide_eq_true_eq] at coinbase
    rw [single, dependents, List.filter_cons_of_neg (by simpa using coinbase.1), List.filter_nil]
  · cases coinbase

theorem dependents_eq_self {txins : List TxIn} (nonzero : ∀ txin ∈ txins, txin.prevoutHash ≠ emptyHash) :
    dependents txins = txins :=
  List.filter_eq_self.mpr fun txin member => decide_eq_true (nonzero txin member)

theorem isCoinbase_eq_false {tx : Tx} (nonzero : ∀ txin ∈ tx.txins, txin.prevoutHash ≠ emptyHash) : tx.isCoinbase = false := by
  unfold Tx.isCoinbase
  split
  · next txin single =>
    rw [TxIn.isEmpty, decide_eq_false (nonzero txin (by rw [single]; exact List.mem_cons_self)), Bool.false_and]
  · rfl

/-- The inputs that `apply_block` needs an output for are those that `process_block` does
not skip. -/
theorem Analysable.dependents (input : Analysable s disk block) :
    block.spends = Bitlens.dependents (block.txs.flatMap (·.txins)) ∧
      ∀ tx ∈ block.txs, (Bitlens.dependents tx.txins).length = tx.txinCount := by
  obtain ⟨first, rest, txs, coinbase, nonzero⟩ := input.coinbase
  have others : ∀ tx ∈ rest, tx.isCoinbase = false := fun tx member => isCoinbase_eq_false (nonzero tx member)
  constructor
  · have kept : rest.filter (fun tx => !tx.isCoinbase) = rest :=
      List.filter_eq_self.mpr fun tx member => by rw [others tx member]; rfl
    have all : ∀ txin ∈ rest.flatMap (·.txins), txin.prevoutHash ≠ emptyHash := by
      intro txin member
      obtain ⟨tx, inRest, inTx⟩ := List.mem_flatMap.mp member
      exact nonzero tx inRest txin inTx
    have none : first.txins.filter (fun txin => decide (txin.prevoutHash ≠ emptyHash)) = [] :=
      Tx.isCoinbase_dependents coinbase
    rw [Block.spends, txs, List.filter_cons_of_neg (by rw [coinbase]; exact Bool.false_ne_true), kept, List.flatMap_cons,
      Bitlens.dependents, List.filter_append, none]
    exact (dependents_eq_self all).symm
  · intro tx member
    rw [txs] at member
    rcases List.mem_cons.mp member with rfl | inRest
    · rw [Tx.isCoinbase_dependents coinbase, Tx.txinCount, if_pos coinbase]
      rfl
    · rw [dependents_eq_self (nonzero tx inRest), Tx.txinCount, if_neg (by rw [others tx inRest]; exact Bool.false_ne_true)]

theorem forall₂_flatten {R : TxIn → TxOut → Prop}
    (related : List.Forall₂ (fun tx txDeps => List.Forall₂ R (dependents tx.txins) txDeps) txs deps) :
    List.Forall₂ R (dependents (txs.flatMap (·.txins))) deps.flatten := by
  induction related with
  | nil => exact .nil
  | cons first _ ih =>
    rw [List.flatMap_cons, dependents, List.filter_append, List.flatten_cons]
    exact List.rel_append first ih

theorem Analysable.nonempty (input : Analysable s disk block) : block.txs ≠ [] := by
  obtain ⟨first, rest, txs, _⟩ := input.coinbase
  rw [txs]
  exact List.cons_ne_nil first rest

theorem Analysable.each (input : Analysable s disk block) :
    ∀ txin ∈ Bitlens.dependents (block.txs.flatMap (·.txins)), ∃ dep, SameOutput s disk block txin dep := by
  intro txin member
  obtain ⟨member, nonzero⟩ := List.mem_filter.mp member
  obtain ⟨tx, inTxs, inTx⟩ := List.mem_flatMap.mp member
  exact input.resolves tx inTxs txin (List.mem_filter.mpr ⟨inTx, nonzero⟩)

theorem processBlock_eq (input : Analysable s disk block) :
    ∃ deps, Provided s disk block deps ∧ processBlock p scripts synced s consumed block =
      match synced.reserveArrays [(serializedTxLayout, block.txs.length)] consumed with
      | .ok consumed =>
        let result := analyzeAll p scripts synced block.header (block.txs.zip deps) ⟨[], 0, 0, consumed⟩
        some (result.1, result.2 >>= finishProcessed synced block)
      | _ => some ([], .fault) := by
  obtain ⟨all, fetched⟩ := loadedDeps_resolved input.each
  have inMemory : ∀ tx ∈ block.txs, ∀ txin ∈ dependents tx.txins, s.InMemory (SameOutput s disk block) txin := by
    intro tx inTxs txin depends
    obtain ⟨dep, same⟩ := input.resolves tx inTxs txin depends
    exact same.memory
  obtain ⟨deps, assembled, right⟩ := @Pipeline.assembleTxs_resolved s _ _ [] 0 _ block.txs inMemory fetched
    (List.append_nil _).symm
  rw [← Pipeline.missing_eq] at all assembled
  refine ⟨deps, right, ?_⟩
  rw [processBlock]
  dsimp only
  rw [if_pos all]
  simp only [if_neg input.nonempty, processTxs_eq assembled]

theorem applyAnalysis_eq (input : Analysable s disk block) (right : Provided s disk block deps) :
    applyAnalysis p scripts applied disk block =
      let result := analyzeAll p scripts applied block.header (block.txs.zip deps) ⟨[], 0, 0, 0⟩
      some (result.1, result.2 >>= finishApplied applied block) := by
  obtain ⟨spends, counts⟩ := input.dependents
  have resolves := input.each
  rw [← spends] at resolves
  obtain ⟨pending, more, spawned, spawnedFor, assembles⟩ := pendingDeps_resolved resolves []
  obtain ⟨owned, awaited, loaded⟩ := ownedDeps_resolved
    (fun txin member => resolves txin (spawnedFor txin member).1) [] fun txin member => (spawnedFor txin member).2
  obtain ⟨flat, inPlace, flatRight⟩ := assembles [] owned rfl loaded
  rw [spends] at flatRight
  have unique : Relator.RightUnique (SameOutput s disk block) := fun _ _ _ => SameOutput.eq
  have same : flat = deps.flatten := List.right_unique_forall₂' unique flatRight (forall₂_flatten right)
  have lengths : List.Forall₂ (fun tx txDeps => txDeps.length = tx.txinCount) block.txs deps := by
    refine List.forall₂_iff_get.mpr ⟨right.length_eq, fun i inTxs inDeps => ?_⟩
    rw [← counts _ (List.get_mem _ _)]
    exact (right.get inTxs inDeps).length_eq.symm
  rw [List.nil_append] at spawned awaited inPlace
  rw [applyAnalysis, spawned]
  dsimp only
  rw [show ownedDeps (fun task => more[task]?.bind fun txin => disk txin.prevoutHash) 0 more = some owned from awaited]
  dsimp only
  rw [inPlace]
  dsimp only
  rw [if_neg input.nonempty, same, applyTxs_eq lengths]

/-- What is analysed is what `apply_block` writes. -/
theorem applyAnalysis_analyzeBlock {calls : List (List TxOut)} {analysis : BlockAnalysis}
    (made : applyAnalysis p scripts arena disk block = some (calls, .ok analysis)) :
    ∃ pending handles owned deps used, pendingDeps (selfTxs block) block.spends [] = .ok (pending, handles) ∧
      ownedDeps (fun task => handles[task]?.bind fun txin => disk txin.prevoutHash) 0 handles = some owned ∧
        assembleDeps owned pending = .ok deps ∧ analyzeBlock p scripts arena block deps =
          .ok (⟨block.header.hash, analysis.analyzed⟩, analysis.coinbaseAscii, used) := by
  unfold applyAnalysis at made
  split at made
  · next pending handles spawned =>
    split at made
    · cases made
    · next owned awaited =>
      split at made
      · next deps inPlace =>
        split at made
        · cases made
        · obtain ⟨-, finished⟩ := Prod.mk.inj (Option.some.inj made)
          obtain ⟨final, analyzed, finished⟩ := Outcome.bind_eq_ok.mp finished
          obtain ⟨first, atFirst, finished⟩ := Outcome.bind_eq_ok.mp finished
          obtain ⟨coinbase, atCoinbase, finished⟩ := Outcome.bind_eq_ok.mp finished
          obtain ⟨used, slice, finished⟩ := Outcome.bind_eq_ok.mp finished
          cases finished
          have found := (@dependencies_eq_some _ _ _ [] _ _ rfl).mpr ⟨pending, handles, owned, spawned, awaited, inPlace⟩
          have length := dependencies_length found
          rw [length_spends] at length
          obtain ⟨records, atTxs, shape⟩ := applyTxs_eq_ok (Nat.le_of_eq length.symm) analyzed
          refine ⟨pending, handles, owned, deps, used, spawned, awaited, inPlace, ?_⟩
          rw [analyzeBlock, atFirst, Outcome.ok_bind]
          dsimp only at atTxs
          rw [atTxs, Outcome.ok_bind]
          dsimp only
          rw [atCoinbase, Outcome.ok_bind, slice, shape, List.nil_append]
          rfl
      · cases made
  · cases made

/-! What both paths make of the block. -/

theorem analyses_iff : Analyses p scripts block deps ↔
    ∃ result, analyzeSpending p scripts block.header (block.txs.zip deps) 0 0 = .ok result := by
  unfold Analyses
  cases p with
  | dev =>
    have amounts := @analyzeSpending_dev scripts block.header (block.txs.zip deps) 0 0 (Nat.two_pow_pos 64) (Nat.two_pow_pos 64)
    simp only [Nat.zero_add] at amounts
    rw [amounts]
    exact ⟨fun ⟨returns, fits⟩ => ⟨(fits rfl).balanced, (fits rfl).fees, (fits rfl).volume, returns⟩,
      fun ⟨balanced, fees, volume, returns⟩ => ⟨returns, fun _ => ⟨balanced, fees, volume⟩⟩⟩
  | release =>
    rw [analyzeSpending_release]
    exact ⟨fun ⟨returns, _⟩ => returns, fun returns => ⟨returns, nofun⟩⟩

/-- What is stored for the records of the transactions. -/
def stored (block : Block) (result : List SerializedTx × Nat × Nat) : BlockAnalysis :=
  ⟨result.1, result.2.1, result.2.2, block.txs.length, coinbaseScript block⟩

theorem Analysable.coinbaseScript (input : Analysable s disk block) : ∃ first coinbase, block.txs.head? = some first ∧
    first.txins.head? = some coinbase ∧ Bitlens.coinbaseScript block = coinbase.sigScript := by
  obtain ⟨first, rest, txs, coinbase, _⟩ := input.coinbase
  unfold Tx.isCoinbase at coinbase
  split at coinbase
  · next txin single => exact ⟨first, txin, by rw [txs]; rfl, by rw [single]; rfl, by simp [Bitlens.coinbaseScript, txs, single]⟩
  · cases coinbase

/-- What `process_block` does behind its loop returns when there is room for the coinbase. -/
theorem finishProcessed_eq_ok (input : Analysable s disk block) {analysis : BlockAnalysis} :
    finishProcessed arena block totals = .ok analysis ↔
      (∃ used, arena.reserveArrays [(u8Layout, (coinbaseScript block).length)] totals.consumed = .ok used) ∧
        analysis = stored block (totals.analyzed, totals.feesTotal, totals.volume) := by
  obtain ⟨first, coinbase, atFirst, atCoinbase, script⟩ := input.coinbaseScript
  simp only [finishProcessed, atFirst, atCoinbase, Outcome.unwrap_some, Outcome.ok_bind, Outcome.bind_eq_ok, stored, script,
    Outcome.pure_def, Outcome.ok.injEq]
  exact ⟨fun ⟨used, taken, same⟩ => ⟨⟨used, taken⟩, same.symm⟩, fun ⟨⟨used, taken⟩, same⟩ => ⟨used, taken, same.symm⟩⟩

theorem finishApplied_eq_ok (input : Analysable s disk block) {analysis : BlockAnalysis} :
    finishApplied arena block totals = .ok analysis ↔
      (∃ used, arena.reserveArrays [(sliceLayout, 1)] totals.consumed = .ok used) ∧
        analysis = stored block (totals.analyzed, totals.feesTotal, totals.volume) := by
  obtain ⟨first, coinbase, atFirst, atCoinbase, script⟩ := input.coinbaseScript
  simp only [finishApplied, atFirst, atCoinbase, Outcome.unwrap_some, Outcome.ok_bind, Outcome.bind_eq_ok, stored, script,
    Outcome.pure_def, Outcome.ok.injEq]
  exact ⟨fun ⟨used, taken, same⟩ => ⟨⟨used, taken⟩, same.symm⟩, fun ⟨⟨used, taken⟩, same⟩ => ⟨used, taken, same.symm⟩⟩

/-- A path that takes the last array for the coinbase stores the analysis of the
transactions when all of its memory fits. -/
theorem analyzeAll_finish {last : Layout × Nat} {finish : BlockTotals → Outcome BlockAnalysis} {analysis : BlockAnalysis}
    (finishes : ∀ totals analysis, finish totals = .ok analysis ↔
      (∃ used, arena.reserveArrays [last] totals.consumed = .ok used) ∧
        analysis = stored block (totals.analyzed, totals.feesTotal, totals.volume)) :
    (analyzeAll p scripts arena block.header (block.txs.zip deps) ⟨[], 0, 0, consumed⟩).2 >>= finish = .ok analysis ↔
      (∃ result, analyzeSpending p scripts block.header (block.txs.zip deps) 0 0 = .ok result ∧
        analysis = stored block result) ∧
        ∃ used, arena.reserveArrays (analysisArrays block.header.timestamp.toUInt64 (block.txs.zip deps) ++ [last])
          consumed = .ok used := by
  simp only [Arena.reserveArrays_append, Outcome.bind_eq_ok, analyzeAll_eq_ok, finishes, List.nil_append]
  constructor
  · intro ⟨final, ⟨records, result, shape, taken⟩, ⟨used, later⟩, same⟩
    exact ⟨⟨_, result, by rw [same, shape]⟩, used, final.consumed, taken, later⟩
  · intro ⟨⟨⟨records, feesTotal, volume⟩, result, same⟩, used, middle, taken, later⟩
    exact ⟨⟨records, feesTotal, volume, middle⟩, ⟨records, result, rfl, taken⟩, ⟨used, later⟩, same⟩

theorem finish_ne_err {finish : BlockTotals → Outcome BlockAnalysis} {pairs : List (Tx × List TxOut)}
    (finishes : ∀ totals, finish totals ≠ .err) :
    (analyzeAll p scripts arena header pairs totals).2 >>= finish ≠ .err := by
  cases reached : (analyzeAll p scripts arena header pairs totals).2 with
  | ok final => exact finishes final
  | err => exact absurd reached analyzeAll_ne_err
  | fault => exact nofun

theorem reserve_ne_err {arrays : List (Layout × Nat)} : arena.reserveArrays arrays consumed ≠ .err := by
  by_cases fits : arena.Fits consumed (arrays.map .array)
  · rw [Arena.reserveArrays_eq_ok.mpr ⟨fits, rfl⟩]
    exact nofun
  · rw [Arena.reserveArrays_unfit fits]
    exact nofun

/-- How a path ends: with the analysis if it can be made and the memory fits, else with a panic. -/
structure Ends (p : Profile) (scripts : Scripts) (block : Block) (deps : List (List TxOut)) (fits : Prop)
    (path : Option (Calls BlockAnalysis)) : Prop where
  returns : ∃ calls outcome, path = some (calls, outcome) ∧ outcome ≠ .err ∧ ∀ analysis, outcome = .ok analysis ↔
    (∃ result, analyzeSpending p scripts block.header (block.txs.zip deps) 0 0 = .ok result ∧
      analysis = stored block result) ∧ fits
  calls : ∀ calls analysis, path = some (calls, .ok analysis) → calls = deps

theorem processBlock_ends (input : Analysable s disk block) : ∃ deps, Provided s disk block deps ∧
    Ends p scripts block deps (FitsProcessed synced consumed block deps)
      (processBlock p scripts synced s consumed block) := by
  obtain ⟨deps, right, processed⟩ := @processBlock_eq p scripts synced consumed s disk block input
  refine ⟨deps, right, ?_⟩
  rw [processed]
  have finishes := fun totals analysis => @finishProcessed_eq_ok synced s disk block totals input analysis
  have fits : FitsProcessed synced consumed block deps ↔ ∃ middle,
      synced.reserveArrays [(serializedTxLayout, block.txs.length)] consumed = .ok middle ∧ ∃ used,
        synced.reserveArrays (analysisArrays block.header.timestamp.toUInt64 (block.txs.zip deps) ++
          [(u8Layout, (coinbaseScript block).length)]) middle = .ok used := by
    rw [FitsProcessed, ← Arena.exists_reserveArrays, List.cons_append, ← List.singleton_append, Arena.reserveArrays_append]
    simp only [Outcome.bind_eq_ok]
    exact exists_comm.trans (exists_congr fun _ => exists_and_left)
  constructor
  · cases taken : synced.reserveArrays [(serializedTxLayout, block.txs.length)] consumed with
    | err => exact absurd taken reserve_ne_err
    | fault =>
      refine ⟨[], .fault, rfl, nofun, fun analysis => ⟨nofun, fun ⟨_, room⟩ => ?_⟩⟩
      obtain ⟨middle, first, _⟩ := fits.mp room
      rw [taken] at first
      cases first
    | ok middle =>
      refine ⟨_, _, rfl, finish_ne_err fun totals same => ?_, fun analysis => ?_⟩
      · obtain ⟨first, coinbase, atFirst, atCoinbase, script⟩ := input.coinbaseScript
        rw [finishProcessed, atFirst, Outcome.unwrap_some, Outcome.ok_bind, atCoinbase, Outcome.unwrap_some,
          Outcome.ok_bind] at same
        cases room : synced.reserveArrays [(u8Layout, coinbase.sigScript.length)] totals.consumed with
        | ok used => rw [room] at same; cases same
        | err => exact reserve_ne_err room
        | fault => rw [room] at same; cases same
      · rw [analyzeAll_finish finishes, fits]
        simp only [taken, Outcome.ok.injEq, exists_eq_left']
  · intro calls analysis made
    split at made
    · next middle _ =>
      obtain ⟨rfl, reached⟩ := Prod.mk.inj (Option.some.inj made)
      obtain ⟨final, atFinal, _⟩ := Outcome.bind_eq_ok.mp reached
      rw [analyzeAll_calls atFinal, List.map_snd_zip right.length_eq.ge]
    · cases made

theorem applyAnalysis_ends (input : Analysable s disk block) (right : Provided s disk block deps) :
    Ends p scripts block deps (FitsApplied applied block deps) (applyAnalysis p scripts applied disk block) := by
  rw [applyAnalysis_eq input right]
  have finishes := fun totals analysis => @finishApplied_eq_ok applied s disk block totals input analysis
  constructor
  · refine ⟨_, _, rfl, finish_ne_err fun totals same => ?_, fun analysis => ?_⟩
    · obtain ⟨first, coinbase, atFirst, atCoinbase, script⟩ := input.coinbaseScript
      rw [finishApplied, atFirst, Outcome.unwrap_some, Outcome.ok_bind, atCoinbase, Outcome.unwrap_some,
        Outcome.ok_bind] at same
      cases room : applied.reserveArrays [(sliceLayout, 1)] totals.consumed with
      | ok used => rw [room] at same; cases same
      | err => exact reserve_ne_err room
      | fault => rw [room] at same; cases same
    · rw [analyzeAll_finish finishes, FitsApplied, Arena.exists_reserveArrays]
  · intro calls analysis made
    obtain ⟨rfl, reached⟩ := Prod.mk.inj (Option.some.inj made)
    obtain ⟨final, atFinal, _⟩ := Outcome.bind_eq_ok.mp reached
    rw [analyzeAll_calls atFinal, List.map_snd_zip right.length_eq.ge]

theorem Provided.unique {others : List (List TxOut)} (right : Provided s disk block deps)
    (again : Provided s disk block others) : deps = others := by
  have unique : Relator.RightUnique (SameOutput s disk block) := fun _ _ _ => SameOutput.eq
  have each : Relator.RightUnique fun (tx : Tx) txDeps => List.Forall₂ (SameOutput s disk block) (dependents tx.txins) txDeps :=
    fun _ _ _ one two => List.right_unique_forall₂' unique one two
  exact List.right_unique_forall₂' each right again

/-- Block sync and the chain watcher make the same of the block, from calls of
`analyze_tx` with the same dependencies, exactly when the memory of both suffices or that of
neither, unless the analysis panics anyway. -/
theorem processBlock_eq_applyAnalysis (input : Analysable s disk block) :
    SameAnalysis s disk block (processBlock p scripts synced s consumed block) (applyAnalysis p scripts applied disk block) ↔
      ∀ deps, Provided s disk block deps → Analyses p scripts block deps →
        (FitsProcessed synced consumed block deps ↔ FitsApplied applied block deps) := by
  obtain ⟨deps, right, processed⟩ := @processBlock_ends p scripts synced consumed s disk block input
  have applied_ends := @applyAnalysis_ends p scripts applied s disk block deps input right
  obtain ⟨calls, outcome, atProcessed, noErr, returns⟩ := processed.returns
  obtain ⟨others, result, atApplied, noError, applies⟩ := applied_ends.returns
  constructor
  · rintro ⟨_, _, _, same, again, _⟩ provided resolved analyses
    rw [resolved.unique right] at analyses ⊢
    obtain ⟨made, analyzed⟩ := analyses_iff.mp analyses
    obtain ⟨_, rfl⟩ := Prod.mk.inj (Option.some.inj (atProcessed.symm.trans same))
    obtain ⟨_, rfl⟩ := Prod.mk.inj (Option.some.inj (atApplied.symm.trans again))
    have reached := (returns (stored block made)).symm.trans (applies (stored block made))
    have ready : ∃ result, analyzeSpending p scripts block.header (block.txs.zip deps) 0 0 = .ok result ∧
      stored block made = stored block result := ⟨made, analyzed, rfl⟩
    exact ⟨fun fits => (reached.mp ⟨ready, fits⟩).2, fun fits => (reached.mpr ⟨ready, fits⟩).2⟩
  · intro fit
    have agree : ∀ analysis, outcome = .ok analysis ↔ result = .ok analysis := by
      intro analysis
      rw [returns, applies]
      refine and_congr_right fun ⟨made, analyzed, _⟩ => fit deps right (analyses_iff.mpr ⟨made, analyzed⟩)
    have same : outcome = result := by
      cases ended : outcome with
      | ok analysis => exact ((agree analysis).mp ended).symm
      | err => exact absurd ended noErr
      | fault =>
        cases other : result with
        | ok analysis =>
          rw [(agree analysis).mpr other] at ended
          cases ended
        | err => exact absurd other noError
        | fault => rfl
    subst same
    refine ⟨calls, others, outcome, atProcessed, atApplied, fun analysis made => ?_⟩
    subst made
    rw [processed.calls _ _ atProcessed, applied_ends.calls _ _ atApplied]
    obtain ⟨⟨made, _, rfl⟩, _⟩ := (returns analysis).mp rfl
    exact ⟨rfl, rfl, right⟩

/-- In the states that the block writer reaches, each input that refers to an output has it
in every place. -/
theorem Pipeline.Sound.sameOutput {outs : Hash → List TxOut} {start : Hash → Option (List TxOut)} {blocks : List Block}
    (sound : s.Sound outs start blocks) (stored : ∀ hash txouts, disk hash = some txouts → txouts = outs hash)
    (created : ∀ tx ∈ block.txs, tx.txouts = outs tx.hash) (refers : Refers outs txin dep)
    (synced : (s.find txin.prevoutHash).isSome ∨ (s.disk txin.prevoutHash).isSome)
    (applied : (∃ tx ∈ block.txs, tx.hash = txin.prevoutHash) ∨ (disk txin.prevoutHash).isSome) :
    SameOutput s disk block txin dep where
  inMemory := by
    intro entry found
    have live : s.Live outs txin.prevoutHash entry :=
      found.elim (fun found => (sound.current _ entry found).1) fun found => (sound.previous _ entry found).1
    exact ⟨live.2, by rw [live.1]; exact refers⟩
  onDisk := by
    intro txouts found
    rw [found.elim (sound.stored _ txouts) (stored _ txouts)]
    exact refers
  inBlock := by
    intro tx member hash
    rw [created tx member, hash]
    exact refers
  synced := synced
  applied := applied

open Pipeline

/-- A coinbase and two transactions; the last spends an output of the one before it. -/
def pairBlock : Block :=
  byteBlock 11 [{ byteTx 3 [] with txins := [⟨emptyHash, 0xFFFFFFFF, 0, []⟩] }, byteTx 4 [1, 2], byteTx 6 [4]]

/-- The arena of a batch of 64 blocks. -/
def batchArena : Arena := ⟨16777216, 64 * 8388608, by decide⟩

theorem processBlock_eq_applyAnalysis_pair :
    SameAnalysis (after next (start byteDisk [pairBlock]) [.insert]) byteDisk pairBlock
      (processBlock .dev checkedScripts batchArena (after next (start byteDisk [pairBlock]) [.insert]) 300 pairBlock)
      (applyAnalysis .dev checkedScripts analysisArena byteDisk pairBlock) := by
  have input : Spendable byteOuts byteDisk [pairBlock] := ⟨byteDisk_stored, by decide, by decide⟩
  have sound := @Sound.step _ _ _ _ _ .insert input (sound_start input) trivial rfl
  have same : ∀ tx ∈ pairBlock.txs, ∀ txin ∈ dependents tx.txins, SameOutput (after next (start byteDisk [pairBlock]) [.insert])
      byteDisk pairBlock txin ⟨(txin.prevoutHash.1.headD 0).toUInt64, []⟩ := by
    intro tx inTxs txin depends
    have each : ∀ tx ∈ pairBlock.txs, ∀ txin ∈ dependents tx.txins,
        (byteOuts txin.prevoutHash)[txin.prevoutIndex.toNat]? = some ⟨(txin.prevoutHash.1.headD 0).toUInt64, []⟩ ∧
          (((after next (start byteDisk [pairBlock]) [.insert]).find txin.prevoutHash).isSome ∨
            (byteDisk txin.prevoutHash).isSome) ∧
          ((∃ tx ∈ pairBlock.txs, tx.hash = txin.prevoutHash) ∨ (byteDisk txin.prevoutHash).isSome) := by decide
    obtain ⟨refers, synced, applied⟩ := each tx inTxs txin depends
    exact sound.sameOutput byteDisk_stored (by decide) refers synced applied
  refine (processBlock_eq_applyAnalysis ⟨⟨_, _, rfl, by decide, by decide⟩, fun tx inTxs txin depends =>
    ⟨_, same tx inTxs txin depends⟩⟩).mpr fun deps right _ => ?_
  have known : Provided (after next (start byteDisk [pairBlock]) [.insert]) byteDisk pairBlock
      (pairBlock.txs.map fun tx => (dependents tx.txins).map fun txin => ⟨(txin.prevoutHash.1.headD 0).toUInt64, []⟩) := by
    rw [Provided, List.forall₂_map_right_iff, List.forall₂_same]
    intro tx inTxs
    rw [List.forall₂_map_right_iff, List.forall₂_same]
    exact same tx inTxs
  rw [right.unique known]
  exact iff_of_true (by decide) (by decide)

/-! A block whose coinbase pays to many keys. -/

def keyOutput : TxOut :=
  ⟨1, 0x00 :: 0x14 :: List.replicate 20 7⟩

def payoutTx (count : Nat) : Tx :=
  { byteTx 3 [] with txins := [⟨emptyHash, 0xFFFFFFFF, 0, []⟩], txouts := List.replicate count keyOutput }

def payoutBlock (count : Nat) : Block :=
  byteBlock 11 [payoutTx count]

theorem sumSigops_replicate {script : Bytes} (none : getSigopCount script false = .ok 0) (count : Nat) :
    sumSigops (List.replicate count script) 0 = .ok 0 := by
  induction count with
  | zero => rfl
  | succ count ih =>
    rw [List.replicate_succ, sumSigops, none, Outcome.ok_bind, Profile.add_of_lt (by decide), Outcome.ok_bind]
    exact ih

theorem payoutTx_address (count : Nat) (timestamp : UInt64) : ∃ key : Bytes, key.length = 60 ∧
    getAddressFromScriptCopyIntoArenaWithTxhash keyOutput.script (payoutTx count).hash timestamp = some key := by
  have address : addressOf keyOutput.script = some (List.replicate 20 7) := by decide
  refine ⟨amendKey (List.replicate 20 7) timestamp (payoutTx count).hash, ?_, ?_⟩
  · rw [amendKey, List.length_append, List.length_append, length_beBytes, (payoutTx count).hash.2]
    rfl
  · rw [getAddressFromScriptCopyIntoArenaWithTxhash, address]
    rfl

theorem amendsCount_payoutTx (count : Nat) : amendsCount (payoutTx count) [] = count := by
  have has : scriptHasAddress keyOutput.script = true := by decide
  rw [amendsCount, if_pos (by rfl), Nat.zero_add]
  change (List.replicate count keyOutput).countP _ = count
  rw [List.countP_replicate, if_pos has]

/-- Counting its operations and making its amends does not panic. -/
theorem payoutTx_returns (count : Nat) (timestamp : UInt64) : ScriptsReturn checkedScripts timestamp (payoutTx count, []) := by
  constructor
  · refine ⟨0, ?_⟩
    have script : getSigopCount keyOutput.script false = .ok 0 := by decide +kernel
    have own : sumSigops [[]] 0 = .ok 0 := by decide +kernel
    have outputs : sumSigops ((payoutTx count).txouts.map (·.script)) 0 = .ok 0 := by
      rw [show (payoutTx count).txouts = List.replicate count keyOutput from rfl, List.map_replicate]
      exact sumSigops_replicate script count
    have legacy : getLegacySigops (payoutTx count) = .ok 0 := by
      rw [getLegacySigops, show (payoutTx count).txins.map (·.sigScript) = [[]] from rfl, own, Outcome.ok_bind, outputs]
      rfl
    rw [checkedScripts]
    dsimp only
    rw [getTransactionSigopCost, legacy]
    rfl
  · obtain ⟨key, _, address⟩ := payoutTx_address count timestamp
    rw [checkedScripts]
    dsimp only
    by_cases nothing : amendsCount (payoutTx count) [] = 0
    · exact ⟨none, if_pos nothing⟩
    · have amends : addressAmends .dev (payoutTx count) [] timestamp =
          .ok (List.replicate count (key, keyOutput.value.toInt64)) := by
        rw [addressAmends, show (payoutTx count).txouts = List.replicate count keyOutput from rfl,
          List.filterMap_replicate_of_some (by rw [address]; rfl)]
        rfl
      rw [if_neg nothing, amends, Outcome.ok_bind, List.length_replicate, amendsCount_payoutTx, if_pos le_rfl]
      exact ⟨_, rfl⟩

/-- The arrays of its analysis: the record, the outputs, the amends and their keys. -/
theorem analysisArrays_payout (count : Nat) (positive : 0 < count) (timestamp : UInt64) :
    analysisArrays timestamp [(payoutTx count, [])] =
      [(u8Layout, 115), (u8Layout, lengthVarint (UInt64.ofNat count) + 31 * count), (⟨24, 8⟩, count)] ++
        List.replicate count (u8Layout, 60) := by
  obtain ⟨key, length, address⟩ := payoutTx_address count timestamp
  have outputs : (payoutTx count).txouts = List.replicate count keyOutput := rfl
  have sizes : ((List.replicate count keyOutput).map TxOut.serializedLength).sum = 31 * count := by
    rw [List.map_replicate, List.sum_replicate, show keyOutput.serializedLength = 31 from rfl]
    exact Nat.mul_comm _ _
  have own : serializedWithoutTxoutsSize (payoutTx count) + 8 + 8 + 4 + 4 + 8 + 32 +
      (lengthVarint (UInt64.ofNat 0) + 0 * 8) = 115 := rfl
  rw [analysisArrays, List.flatMap_cons, List.flatMap_nil, List.append_nil]
  simp only [analyzeTxArrays, amendsCount_payoutTx, if_neg positive.ne', outputs, sizes, List.length_replicate,
    List.nil_append, List.length_nil, own]
  have keys : (List.replicate count keyOutput).filterMap (fun txout =>
      (getAddressFromScriptCopyIntoArenaWithTxhash txout.script (payoutTx count).hash timestamp).map
        fun key => (u8Layout, key.length)) = List.replicate count (u8Layout, 60) :=
    List.filterMap_replicate_of_some (by rw [address, Option.map_some, length])
  rw [if_pos (by rfl), keys]
  rfl

theorem payout_analysable (s : Pipeline) (count : Nat) : Analysable s byteDisk (payoutBlock count) where
  coinbase := ⟨payoutTx count, [], rfl, rfl, fun _ member => (List.not_mem_nil member).elim⟩
  resolves := by
    intro tx inTxs txin depends
    rw [List.mem_singleton.mp inTxs, Tx.isCoinbase_dependents (show (payoutTx count).isCoinbase = true from rfl)] at depends
    cases depends

/-- The record, the outputs and the amends. -/
def payoutArrays (count : Nat) : List (Layout × Nat) :=
  [(u8Layout, 115), (u8Layout, lengthVarint (UInt64.ofNat count) + 31 * count), (⟨24, 8⟩, count)]

/-- The keys lie behind the first three arrays. -/
theorem fits_payout {arena : Arena} {start : Nat} {count : Nat} (positive : 0 < count) (timestamp : UInt64) :
    arena.Fits start ((analysisArrays timestamp [(payoutTx count, [])]).map .array) ↔
      arena.Fits start ((payoutArrays count).map .array) ∧
        arena.after start ((payoutArrays count).map .array) + 60 * count ≤ arena.capacity := by
  have keys : (List.replicate count (u8Layout, 60)).map Demand.array = (List.replicate count 60).map (.block · 1) := by
    rw [List.map_replicate, List.map_replicate]
    rfl
  rw [analysisArrays_payout count positive, List.map_append, Arena.fits_append, keys]
  refine and_congr_right fun first => ?_
  have inside : arena.after start ((payoutArrays count).map .array) ≤ arena.capacity := first.2.2.1
  refine (Arena.fits_bytes _ inside).trans ?_
  rw [List.sum_replicate, smul_eq_mul, Nat.mul_comm count]

theorem after_payout {arena : Arena} {start : Nat} {count : Nat} (positive : 0 < count) (timestamp : UInt64) :
    arena.after start ((analysisArrays timestamp [(payoutTx count, [])]).map .array) =
      arena.after start ((payoutArrays count).map .array) + 60 * count := by
  have keys : (List.replicate count (u8Layout, 60)).map Demand.array = (List.replicate count 60).map (.block · 1) := by
    rw [List.map_replicate, List.map_replicate]
    rfl
  rw [analysisArrays_payout count positive, List.map_append, Arena.after_append, keys, Arena.after_bytes, List.sum_replicate,
    smul_eq_mul, Nat.mul_comm count]
  rfl

theorem payout_analyses {count : Nat} (small : count < 2 ^ 64) : Analyses .dev checkedScripts (payoutBlock count) [[]] := by
  have outputs : valueOf (payoutTx count).txouts = count := by
    rw [valueOf, show (payoutTx count).txouts = List.replicate count keyOutput from rfl, List.map_replicate,
      List.sum_replicate]
    exact Nat.mul_one count
  refine ⟨List.forall_mem_singleton.mpr (payoutTx_returns count _), fun _ =>
    ⟨List.forall_mem_singleton.mpr fun coinbase => ?_, (by decide : 0 < 2 ^ 64), ?_⟩⟩
  · rw [show (payoutTx count).isCoinbase = true from rfl] at coinbase
    cases coinbase
  · change valueOf (payoutTx count).txouts + 0 < 2 ^ 64
    rw [outputs]
    exact small

/-- The arena of `apply_block` is too small for a block that pays to many keys. -/
theorem processBlock_ne_applyAnalysis :
    ¬ ∀ (p : Profile) (scripts : Scripts) (synced applied : Arena) (s : Pipeline) (consumed : Nat)
      (disk : Hash → Option (List TxOut)) (block : Block),
      synced.capacity = 64 * (maxPacketSize + analyzedOverheadPerBlock) →
        applied.capacity = maxPacketSize + analyzedOverheadPerBlock → Analysable s disk block →
          SameAnalysis s disk block (processBlock p scripts synced s consumed block)
            (applyAnalysis p scripts applied disk block) := by
  intro claim
  have same := claim .dev checkedScripts batchArena analysisArena (start byteDisk []) 300 byteDisk (payoutBlock 73000) rfl rfl
    (payout_analysable _ _)
  have fit := (processBlock_eq_applyAnalysis (payout_analysable _ _)).mp same [[]] (.cons .nil .nil)
    (payout_analyses (by decide))
  have room : FitsProcessed batchArena 300 (payoutBlock 73000) [[]] := by
    rw [FitsProcessed, List.cons_append, List.map_cons, List.map_append]
    refine ⟨by decide, Arena.fits_append.mpr ⟨(fits_payout (by decide) _).mpr ⟨by decide, by decide⟩, ?_⟩⟩
    rw [show (payoutBlock 73000).txs.zip [[]] = [(payoutTx 73000, [])] from rfl, after_payout (by decide)]
    decide
  have full := fit.mp room
  rw [FitsApplied, List.map_append] at full
  exact absurd ((fits_payout (by decide) _).mp (Arena.fits_append.mp full).1).2 (by decide)

end Bitlens

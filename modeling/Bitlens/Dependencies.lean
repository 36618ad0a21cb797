import Bitlens.Pipeline
import Mathlib.Data.List.Forall2
import Mathlib.Data.List.Infix

namespace Bitlens
open Lib

variable {outs : Hash → List TxOut}

/-- `dep` is the output with the prevout hash and index of the input. -/
def Refers (outs : Hash → List TxOut) (txin : TxIn) (dep : TxOut) : Prop :=
  (outs txin.prevoutHash)[txin.prevoutIndex.toNat]? = some dep

/-- The inputs that have a dependency. -/
def dependents (txins : List TxIn) : List TxIn :=
  txins.filter fun txin => decide (txin.prevoutHash ≠ emptyHash)

/-- The dependencies passed for a block, transaction by transaction, are the
outputs its inputs refer to. -/
def Resolved (outs : Hash → List TxOut) (block : Block) (deps : List (List TxOut)) : Prop :=
  List.Forall₂ (fun tx txDeps => List.Forall₂ (Refers outs) (dependents tx.txins) txDeps) block.txs deps

/-- Every input refers to an output of an earlier transaction, stored on disk
before the run or at an earlier position of it; `outs` are the outputs that a
transaction hash stands for. -/
structure Spendable (outs : Hash → List TxOut) (disk : Hash → Option (List TxOut)) (blocks : List Block) : Prop where
  stored : ∀ hash txouts, disk hash = some txouts → txouts = outs hash
  created : ∀ block ∈ blocks, ∀ tx ∈ block.txs, tx.txouts = outs tx.hash
  earlier : ∀ n (inRun : n < blocks.length), ∀ i (inBlock : i < blocks[n].txs.length),
    ∀ txin ∈ dependents blocks[n].txs[i].txins, txin.prevoutIndex.toNat < (outs txin.prevoutHash).length ∧
      ((disk txin.prevoutHash).isSome ∨
        ∃ source ∈ (blocks.take n).flatMap (·.txs) ++ blocks[n].txs.take i, source.hash = txin.prevoutHash)

theorem Spendable.split {disk : Hash → Option (List TxOut)} {front back : List Block} {block : Block}
    {before after : List Tx} {tx : Tx} (input : Spendable outs disk (front ++ block :: back))
    (txs : block.txs = before ++ tx :: after) {txin : TxIn} (depends : txin ∈ dependents tx.txins) :
    txin.prevoutIndex.toNat < (outs txin.prevoutHash).length ∧
      ((disk txin.prevoutHash).isSome ∨ ∃ source ∈ front.flatMap (·.txs) ++ before, source.hash = txin.prevoutHash) := by
  have earlier := input.earlier front.length (by simp) before.length (by simp [txs]) txin (by simpa [txs] using depends)
  simpa [txs] using earlier

namespace Pipeline

variable {s t : Pipeline}

/-- The entry was copied from the transaction with that hash, and its arena has not
been reset since. -/
def Live (outs : Hash → List TxOut) (s : Pipeline) (hash : Hash) (entry : ArenaTxouts) : Prop :=
  entry.txouts = outs hash ∧ entry.generation = s.generation entry.arena

/-- The inputs of a list whose transactions are not in memory. -/
def unfound (s : Pipeline) (txins : List TxIn) : List TxIn :=
  txins.filter fun txin => (s.find txin.prevoutHash).isNone

theorem missing_eq (block : Block) : s.missing block = s.unfound (dependents (block.txs.flatMap (·.txins))) := by
  rw [missing, unfound, dependents, List.filter_filter]
  congr 1
  funext txin
  exact Bool.and_comm _ _

theorem forall₂_append_split {α β : Type} {R : α → β → Prop} {xs ys : List α} {zs : List β}
    (related : List.Forall₂ R (xs ++ ys) zs) :
    ∃ front back, zs = front ++ back ∧ List.Forall₂ R xs front ∧ List.Forall₂ R ys back := by
  induction xs generalizing zs with
  | nil => exact ⟨[], zs, rfl, .nil, related⟩
  | cons x xs ih =>
    cases related with
    | @cons _ z _ zs first rest =>
      obtain ⟨front, back, rfl, atXs, atYs⟩ := ih rest
      exact ⟨z :: front, back, rfl, .cons first atXs, atYs⟩

section Assembly

/-- The output in memory is `R`-related to the input: its arena was not reset since. -/
def InMemory (s : Pipeline) (R : TxIn → TxOut → Prop) (txin : TxIn) : Prop :=
  ∀ entry, s.find txin.prevoutHash = some entry → entry.generation = s.generation entry.arena ∧
    ∃ dep, entry.txouts[txin.prevoutIndex.toNat]? = some dep ∧ R txin dep

variable {loaded middle back : List TxOut} {index : Nat} {R : TxIn → TxOut → Prop}

/-- Assembly of one transaction: with the right outputs in memory and from disk at the
running index, every dependency is right. -/
theorem assembleTxins_resolved {txins : List TxIn} (inMemory : ∀ txin ∈ dependents txins, s.InMemory R txin)
    (fetched : List.Forall₂ R (s.unfound (dependents txins)) middle) (position : loaded.drop index = middle ++ back) :
    ∃ deps, s.assembleTxins loaded txins index = some (deps, index + middle.length) ∧
      List.Forall₂ R (dependents txins) deps := by
  induction txins generalizing index middle with
  | nil =>
    cases fetched
    exact ⟨[], rfl, .nil⟩
  | cons txin rest ih =>
    rw [assembleTxins]
    by_cases coinbase : txin.prevoutHash = emptyHash
    · rw [dependents, List.filter_cons_of_neg (by simpa using coinbase)] at inMemory fetched ⊢
      rw [if_pos coinbase]
      exact ih inMemory fetched position
    · rw [dependents, List.filter_cons_of_pos (by simpa using coinbase)] at inMemory fetched ⊢
      rw [if_neg coinbase]
      have later := fun other member => inMemory other (List.mem_cons_of_mem _ member)
      cases atHash : s.find txin.prevoutHash with
      | some entry =>
        obtain ⟨current, dep, inRange, right⟩ := inMemory txin List.mem_cons_self entry atHash
        rw [unfound, List.filter_cons_of_neg (by simp [atHash])] at fetched
        obtain ⟨deps, result, resolved⟩ := ih later fetched position
        refine ⟨dep :: deps, ?_, .cons right resolved⟩
        simp only [current, ↓reduceIte, inRange, Option.bind_some, result, Option.map_some]
      | none =>
        rw [unfound, List.filter_cons_of_pos (by simp [atHash])] at fetched
        cases fetched with
        | @cons _ dep _ middle refers fetched =>
          have atIndex : loaded[index]? = some dep := by
            have head := congrArg (·[0]?) position
            simpa only [List.getElem?_drop, Nat.add_zero, List.cons_append, List.getElem?_cons_zero] using head
          have next : loaded.drop (index + 1) = middle ++ back := by
            rw [← List.drop_drop, position]
            rfl
          obtain ⟨deps, result, resolved⟩ := ih later fetched next
          refine ⟨dep :: deps, ?_, .cons refers resolved⟩
          have length : index + 1 + middle.length = index + (dep :: middle).length := by
            rw [List.length_cons]
            omega
          simp only [atIndex, Option.bind_some, result, Option.map_some, length]

/-- Assembly of a block, transaction by transaction. -/
theorem assembleTxs_resolved {txs : List Tx} (inMemory : ∀ tx ∈ txs, ∀ txin ∈ dependents tx.txins, s.InMemory R txin)
    (fetched : List.Forall₂ R (s.unfound (dependents (txs.flatMap (·.txins)))) middle)
    (position : loaded.drop index = middle ++ back) :
    ∃ deps, s.assembleTxs loaded txs index = some deps ∧
      List.Forall₂ (fun tx txDeps => List.Forall₂ R (dependents tx.txins) txDeps) txs deps := by
  induction txs generalizing index middle with
  | nil => exact ⟨[], rfl, .nil⟩
  | cons tx rest ih =>
    have split : s.unfound (dependents ((tx :: rest).flatMap (·.txins))) =
        s.unfound (dependents tx.txins) ++ s.unfound (dependents (rest.flatMap (·.txins))) := by
      rw [List.flatMap_cons, dependents, List.filter_append, unfound, List.filter_append]
      rfl
    rw [split] at fetched
    obtain ⟨ofTx, ofRest, rfl, fetchedTx, fetchedRest⟩ := forall₂_append_split fetched
    rw [List.append_assoc] at position
    obtain ⟨deps, result, resolved⟩ := assembleTxins_resolved (inMemory tx List.mem_cons_self) fetchedTx position
    have next : loaded.drop (index + ofTx.length) = ofRest ++ back := by
      rw [← List.drop_drop, position, List.drop_left]
    obtain ⟨others, results, resolvedRest⟩ :=
      ih (fun other member => inMemory other (List.mem_cons_of_mem _ member)) fetchedRest next
    refine ⟨deps :: others, ?_, .cons resolved resolvedRest⟩
    simp only [assembleTxs, result, Option.bind_some, results, Option.map_some]

end Assembly

/-- A transaction that an input may refer to is on disk or in memory. -/
def Available (s : Pipeline) (hash : Hash) : Prop :=
  (s.disk hash).isSome ∨ (s.find hash).isSome

def Ready (outs : Hash → List TxOut) (s : Pipeline) (block : Block) : Prop :=
  ∀ tx ∈ block.txs, ∀ txin ∈ dependents tx.txins,
    txin.prevoutIndex.toNat < (outs txin.prevoutHash).length ∧ s.Available txin.prevoutHash

/-- A waiting task has looked up, among others, all its inputs that are not in
memory, each is on disk, and what it has loaded is right. -/
def TaskSound (outs : Hash → List TxOut) (s : Pipeline) : ProcessTask → Prop
  | .spawned block => s.Ready outs block
  | .fetching block lookups loadedDeps =>
    s.Ready outs block ∧ s.unfound lookups = s.missing block ∧
      (∀ txin ∈ lookups, txin.prevoutIndex.toNat < (outs txin.prevoutHash).length ∧ (s.disk txin.prevoutHash).isSome) ∧
      List.Forall₂ (fun txin loaded => ∀ dep, loaded = some dep → Refers outs txin dep) lookups loadedDeps
  | .done => True

/-- Nothing leaves the disk or the memory. -/
structure Grows (s t : Pipeline) : Prop where
  disk : ∀ hash, (s.disk hash).isSome → (t.disk hash).isSome
  find : ∀ hash, (s.find hash).isSome → (t.find hash).isSome

theorem Grows.available {hash : Hash} (grows : Grows s t) (available : s.Available hash) : t.Available hash :=
  available.imp (grows.disk hash) (grows.find hash)

theorem Grows.ready {block : Block} (grows : Grows s t) (ready : s.Ready outs block) : t.Ready outs block :=
  fun tx member txin depends => ⟨(ready tx member txin depends).1, grows.available (ready tx member txin depends).2⟩

theorem Grows.unfound (grows : Grows s t) (txins : List TxIn) : t.unfound (s.unfound txins) = t.unfound txins := by
  rw [Pipeline.unfound, Pipeline.unfound, Pipeline.unfound, List.filter_filter]
  congr 1
  funext txin
  have still := grows.find txin.prevoutHash
  cases before : s.find txin.prevoutHash <;> cases after : t.find txin.prevoutHash <;> simp_all

theorem Grows.taskSound (grows : Grows s t) {task : ProcessTask} (sound : s.TaskSound outs task) :
    t.TaskSound outs task := by
  cases task with
  | spawned block => exact grows.ready sound
  | fetching block lookups loadedDeps =>
    obtain ⟨ready, covers, onDisk, loaded⟩ := sound
    refine ⟨grows.ready ready, ?_, fun txin member => ⟨(onDisk txin member).1, grows.disk _ (onDisk txin member).2⟩, loaded⟩
    rw [← grows.unfound lookups, covers, missing_eq, missing_eq, grows.unfound]
  | done => trivial

/-- What holds between any two steps: `disk` and `blocks` are the input of the run. -/
structure Sound (outs : Hash → List TxOut) (disk : Hash → Option (List TxOut)) (blocks : List Block) (s : Pipeline) :
    Prop where
  received : ∃ front, blocks = front ++ s.incoming ∧
    ∀ tx ∈ front.flatMap (·.txs), tx.hash ≠ emptyHash → s.Available tx.hash
  kept : ∀ hash, (disk hash).isSome → (s.disk hash).isSome
  stored : ∀ hash txouts, s.disk hash = some txouts → txouts = outs hash
  current : ∀ hash entry, s.currentTxouts hash = some entry →
    s.Live outs hash entry ∧ entry.arena = s.currentArena ∧
      (hash ≠ emptyHash → hash ∈ (batchTxouts s.batch).map Prod.fst)
  previous : ∀ hash entry, s.previousTxouts hash = some entry →
    s.Live outs hash entry ∧ (entry.arena = !s.currentArena) ∧
      (hash ≠ emptyHash → (s.disk hash).isSome ∨
        ∃ flush, s.flush = some flush ∧ flush.written = false ∧ hash ∈ (batchTxouts flush.batch).map Prod.fst)
  batch : ∀ pair ∈ batchTxouts s.batch, pair.2 = outs pair.1
  flush : ∀ flush, s.flush = some flush → (flush.arena = !s.currentArena) ∧
    flush.generation = s.generation flush.arena ∧ ∀ pair ∈ batchTxouts flush.batch, pair.2 = outs pair.1
  tasks : ∀ task ∈ s.tasks, s.TaskSound outs task
  passed : ∀ block deps, (block, deps) ∈ s.passed → Resolved outs block deps
  quiet : s.panicked = false

variable {disk : Hash → Option (List TxOut)} {blocks : List Block}

theorem sound_start (input : Spendable outs disk blocks) : Sound outs disk blocks (start disk blocks) where
  received := ⟨[], rfl, fun _ member => (List.not_mem_nil member).elim⟩
  kept := fun _ present => present
  stored := input.stored
  current := by
    intro hash entry found
    cases found
  previous := by
    intro hash entry found
    cases found
  batch := fun _ member => (List.not_mem_nil member).elim
  flush := by
    intro flush found
    cases found
  tasks := fun _ member => (List.not_mem_nil member).elim
  passed := fun _ _ member => (List.not_mem_nil member).elim
  quiet := rfl

theorem Sound.live (sound : Sound outs disk blocks s) (hash : Hash) (entry : ArenaTxouts)
    (found : s.find hash = some entry) : s.Live outs hash entry := by
  unfold find at found
  split at found
  · next _ inCurrent =>
    rw [← Option.some.inj found]
    exact (sound.current hash _ inCurrent).1
  · exact (sound.previous hash entry found).1

theorem find_isSome {hash : Hash} :
    (s.find hash).isSome ↔ (s.currentTxouts hash).isSome ∨ (s.previousTxouts hash).isSome := by
  unfold find
  cases s.currentTxouts hash <;> simp

theorem batchTxouts_append (front back : List Block) :
    batchTxouts (front ++ back) = batchTxouts front ++ batchTxouts back := by
  rw [batchTxouts, List.flatMap_append, List.map_append]
  rfl

theorem mem_batchTxouts_singleton {block : Block} {pair : Hash × List TxOut} :
    pair ∈ batchTxouts [block] ↔ ∃ tx ∈ block.txs, (tx.hash, tx.txouts) = pair := by
  rw [batchTxouts, List.flatMap_singleton, List.mem_map]

/-- The state after a block is received. -/
theorem Sound.insert (input : Spendable outs disk blocks) (sound : Sound outs disk blocks s)
    (step : s.next .insert = some t) : Sound outs disk blocks t := by
  rw [next] at step
  split at step
  · cases step
  next block rest incoming =>
  have shape := Option.some.inj step
  have inserted : ∀ tx ∈ block.txs, (t.find tx.hash).isSome := by
    intro tx member
    rw [find_isSome, ← shape]
    exact Or.inl (foldl_mapInsert_isSome member)
  have grows : Grows s t := by
    refine ⟨fun hash present => by rw [← shape]; exact present, fun hash present => ?_⟩
    rw [find_isSome] at present ⊢
    rw [← shape]
    exact present.imp_left fun inCurrent => foldl_mapInsert_isSome_of inCurrent
  obtain ⟨front, split, available⟩ := sound.received
  rw [incoming] at split
  have member : block ∈ blocks := by
    rw [split]
    exact List.mem_append_right _ List.mem_cons_self
  have pairs : ∀ pair ∈ batchTxouts [block], pair.2 = outs pair.1 := by
    intro pair inBlock
    obtain ⟨tx, inTxs, rfl⟩ := mem_batchTxouts_singleton.mp inBlock
    exact input.created block member tx inTxs
  have ready : t.Ready outs block := by
    intro tx inTxs txin depends
    obtain ⟨before, after, txs⟩ := List.append_of_mem inTxs
    obtain ⟨bound, source⟩ := (split ▸ input).split txs depends
    refine ⟨bound, ?_⟩
    rcases source with onDisk | ⟨source, earlier, same⟩
    · exact grows.available (Or.inl (sound.kept _ onDisk))
    · have nonzero : source.hash ≠ emptyHash := by
        rw [same]
        simpa using (List.mem_filter.mp depends).2
      rw [← same]
      rcases List.mem_append.mp earlier with inFront | inBefore
      · exact grows.available (available source inFront nonzero)
      · refine Or.inr (inserted source ?_)
        rw [txs]
        exact List.mem_append_left _ inBefore
  subst shape
  exact {
    received := by
      refine ⟨front ++ [block], by simpa using split, fun tx inFront nonzero => ?_⟩
      rw [List.flatMap_append, List.flatMap_singleton] at inFront
      rcases List.mem_append.mp inFront with old | new
      · exact grows.available (available tx old nonzero)
      · exact Or.inr (inserted tx new)
    kept := sound.kept
    stored := sound.stored
    current := by
      intro hash entry found
      dsimp only
      rw [batchTxouts_append, List.map_append, List.mem_append]
      rcases foldl_mapInsert_origin found with ⟨tx, inTxs, atHash, same⟩ | before
      · have pair := mem_batchTxouts_singleton.mpr ⟨tx, inTxs, rfl⟩
        subst atHash same
        exact ⟨⟨pairs _ pair, rfl⟩, rfl, fun _ => Or.inr (List.mem_map.mpr ⟨_, pair, rfl⟩)⟩
      · obtain ⟨live, arena, inBatch⟩ := sound.current hash entry before
        exact ⟨live, arena, fun nonzero => Or.inl (inBatch nonzero)⟩
    previous := sound.previous
    batch := by
      intro pair inBatch
      rw [batchTxouts_append, List.mem_append] at inBatch
      exact inBatch.elim (sound.batch pair) (pairs pair)
    flush := sound.flush
    tasks := by
      intro task inTasks
      rcases List.mem_append.mp inTasks with old | new
      · exact grows.taskSound (sound.tasks task old)
      · rw [List.mem_singleton.mp new]
        exact ready
    passed := sound.passed
    quiet := sound.quiet }

theorem Sound.setTask (sound : Sound outs disk blocks s) (position : Nat) {task : ProcessTask}
    (taskSound : s.TaskSound outs task) : Sound outs disk blocks { s with tasks := s.tasks.set position task } where
  received := sound.received
  kept := sound.kept
  stored := sound.stored
  current := sound.current
  previous := sound.previous
  batch := sound.batch
  flush := sound.flush
  tasks := by
    intro other member
    rcases List.mem_or_eq_of_mem_set member with old | new
    · exact sound.tasks other old
    · rw [new]
      exact taskSound
  passed := sound.passed
  quiet := sound.quiet

theorem Sound.atTask (sound : Sound outs disk blocks s) {position : Nat} {task : ProcessTask}
    (found : s.tasks[position]? = some task) : s.TaskSound outs task :=
  sound.tasks task (List.mem_of_getElem? found)

theorem Sound.fetch {position : Nat} (sound : Sound outs disk blocks s) (step : s.next (.fetch position) = some t) :
    Sound outs disk blocks t := by
  rw [next] at step
  split at step
  · next block found =>
    have ready : s.Ready outs block := sound.atTask found
    cases Option.some.inj step
    refine sound.setTask position ⟨ready, ?_, ?_, ?_⟩
    · rw [missing_eq, Grows.unfound ⟨fun _ present => present, fun _ present => present⟩]
    · intro txin member
      rw [missing_eq] at member
      obtain ⟨member, absent⟩ := List.mem_filter.mp member
      obtain ⟨member, nonzero⟩ := List.mem_filter.mp member
      obtain ⟨tx, inTxs, inTx⟩ := List.mem_flatMap.mp member
      obtain ⟨bound, available⟩ := ready tx inTxs txin (List.mem_filter.mpr ⟨inTx, nonzero⟩)
      refine ⟨bound, available.resolve_right ?_⟩
      rw [Option.isNone_iff_eq_none] at absent
      rw [absent]
      exact Bool.false_ne_true
    · refine List.forall₂_iff_get.mpr ⟨by rw [List.length_replicate], ?_⟩
      intro i _ inRange dep loaded
      rw [List.get_eq_getElem, List.getElem_replicate] at loaded
      cases loaded
  · cases step

theorem forall₂_set {α β : Type} {R : α → β → Prop} {xs : List α} {ys : List β} {i : Nat} {x : α} {y : β}
    (related : List.Forall₂ R xs ys) (atIndex : xs[i]? = some x) (new : R x y) : List.Forall₂ R xs (ys.set i y) := by
  induction related generalizing i with
  | nil => exact .nil
  | cons first rest ih =>
    cases i with
    | zero =>
      cases Option.some.inj atIndex
      exact .cons new rest
    | succ i => exact .cons first (ih atIndex)

theorem Sound.load {position lookup : Nat} (sound : Sound outs disk blocks s)
    (step : s.next (.load position lookup) = some t) : Sound outs disk blocks t := by
  rw [next] at step
  split at step
  · next block lookups loadedDeps found =>
    obtain ⟨ready, covers, onDisk, loaded⟩ := sound.atTask found
    split at step
    · cases step
    · next txin atLookup =>
      obtain ⟨bound, present⟩ := onDisk txin (List.mem_of_getElem? atLookup)
      obtain ⟨txouts, inStore⟩ := Option.isSome_iff_exists.mp present
      have refers : Refers outs txin (outs txin.prevoutHash)[txin.prevoutIndex.toNat] := List.getElem?_eq_getElem bound
      have result : ((s.disk txin.prevoutHash).bind fun txouts => txouts[txin.prevoutIndex.toNat]?) =
          some (outs txin.prevoutHash)[txin.prevoutIndex.toNat] := by
        rw [inStore, Option.bind_some, sound.stored _ _ inStore]
        exact refers
      rw [result] at step
      cases Option.some.inj step
      refine sound.setTask position ⟨ready, covers, onDisk, forall₂_set loaded atLookup ?_⟩
      intro dep same
      rw [← Option.some.inj same]
      exact refers
  · cases step

/-- Once every lookup is loaded, the list holds the right output for each. -/
theorem forall₂_filterMap {R : TxIn → TxOut → Prop} {lookups : List TxIn} {loadedDeps : List (Option TxOut)}
    (all : loadedDeps.all Option.isSome)
    (loaded : List.Forall₂ (fun txin loaded => ∀ dep, loaded = some dep → R txin dep) lookups loadedDeps) :
    List.Forall₂ R lookups (loadedDeps.filterMap id) := by
  induction loaded with
  | nil => exact .nil
  | @cons txin loaded lookups loadedDeps first rest ih =>
    rw [List.all_cons, Bool.and_eq_true] at all
    obtain ⟨dep, rfl⟩ := Option.isSome_iff_exists.mp all.1
    exact .cons (first dep rfl) (ih all.2)

theorem Sound.assemble {position : Nat} (sound : Sound outs disk blocks s) (aligned : s.Aligned (.assemble position))
    (step : s.next (.assemble position) = some t) : Sound outs disk blocks t := by
  rw [next] at step
  split at step
  · next block lookups loadedDeps found =>
    obtain ⟨ready, covers, onDisk, loaded⟩ := sound.atTask found
    split at step
    · next all =>
      have right := forall₂_filterMap all loaded
      -- the loaded outputs that are still needed are the first ones
      rw [Aligned, found] at aligned
      obtain ⟨others, prefixed⟩ : s.unfound lookups <+: lookups := aligned
      rw [← prefixed] at right
      obtain ⟨middle, back, values, fetched, _⟩ := forall₂_append_split right
      rw [covers, missing_eq] at fetched
      have inMemory : ∀ tx ∈ block.txs, ∀ txin ∈ dependents tx.txins, s.InMemory (Refers outs) txin := by
        intro tx member txin depends entry atHash
        obtain ⟨same, current⟩ := sound.live _ _ atHash
        have inRange := List.getElem?_eq_getElem (ready tx member txin depends).1
        exact ⟨current, _, by rw [same, inRange], inRange⟩
      obtain ⟨deps, result, resolved⟩ := @assembleTxs_resolved s _ middle back 0 _ block.txs inMemory fetched values
      rw [result] at step
      cases Option.some.inj step
      have finished : s.TaskSound outs .done := trivial
      have taken := sound.setTask position finished
      exact { taken with
        passed := by
          intro other otherDeps member
          rcases List.mem_append.mp member with old | new
          · exact sound.passed other otherDeps old
          · cases List.mem_singleton.mp new
            exact resolved
        quiet := taken.quiet }
    · cases step
  · cases step

/-- What ingesting the sorted batch does to the store. -/
theorem written_holds {flush : BatchFlush} {sorted : List (Hash × List TxOut)}
    (sorts : SortsBy Prod.fst (batchTxouts flush.batch) sorted) (store : Hash → Option (List TxOut)) :
    Holds (fun k v => (k, v) ∈ skipRepeats Prod.fst emptyHash sorted) store
      (writeSst store (skipRepeats Prod.fst emptyHash sorted)) := by
  have strict := (skipRepeats_strict Prod.fst sorts.2 fun pair _ => ByteArr.fill_zero_le pair.1).2
  exact writeSst_holds (List.pairwise_map.mpr strict) store

/-- A flush may write any store that keeps what was on disk and has the right outputs for the batch. -/
theorem Sound.setDisk {flush : BatchFlush} {stored : Hash → Option (List TxOut)} (sound : Sound outs disk blocks s)
    (running : s.flush = some flush) (grows : ∀ hash, (s.disk hash).isSome → (stored hash).isSome)
    (right : ∀ hash txouts, stored hash = some txouts → txouts = outs hash)
    (covers : ∀ pair ∈ batchTxouts flush.batch, pair.1 ≠ emptyHash → (stored pair.1).isSome) :
    Sound outs disk blocks { s with disk := stored, flush := some { flush with written := true } } := by
  obtain ⟨arena, generation, pairs⟩ := sound.flush flush running
  have whole : Grows s { s with disk := stored, flush := some { flush with written := true } } :=
    ⟨grows, fun _ present => present⟩
  obtain ⟨front, split, available⟩ := sound.received
  exact {
    received := ⟨front, split, fun tx member nonzero => whole.available (available tx member nonzero)⟩
    kept := fun hash present => grows hash (sound.kept hash present)
    stored := right
    current := sound.current
    previous := by
      intro hash entry found
      obtain ⟨live, opposite, pending⟩ := sound.previous hash entry found
      refine ⟨live, opposite, fun nonzero => Or.inl ?_⟩
      rcases pending nonzero with onDisk | ⟨other, same, _, inBatch⟩
      · exact grows hash onDisk
      · rw [running] at same
        cases Option.some.inj same
        obtain ⟨pair, member, rfl⟩ := List.mem_map.mp inBatch
        exact covers pair member nonzero
    batch := sound.batch
    flush := by
      intro other same
      cases Option.some.inj same
      exact ⟨arena, generation, pairs⟩
    tasks := fun task member => whole.taskSound (sound.tasks task member)
    passed := sound.passed
    quiet := sound.quiet }

theorem Sound.write {sorted : List (Hash × List TxOut)} (sound : Sound outs disk blocks s)
    (step : s.next (.write sorted) = some t) : Sound outs disk blocks t := by
  rw [next] at step
  split at step
  · next flush running =>
    obtain ⟨arena, generation, pairs⟩ := sound.flush flush running
    split at step
    · next guard =>
      obtain ⟨unwritten, sorts⟩ := guard
      have holds := written_holds sorts s.disk
      have right : ∀ k v, (k, v) ∈ skipRepeats Prod.fst emptyHash sorted → v = outs k :=
        fun k v member => pairs (k, v) (sorts.1.mem_iff.mp (skipRepeats_subset _ member))
      cases Option.some.inj step
      refine sound.setDisk running (fun hash present => ?_) (fun hash txouts found => ?_) fun pair member nonzero => ?_
      · by_cases new : ∃ v, (hash, v) ∈ skipRepeats Prod.fst emptyHash sorted
        · obtain ⟨v, member⟩ := new
          rw [(holds hash).1 v member]
          rfl
        · rw [(holds hash).2 fun v member => new ⟨v, member⟩]
          exact present
      · by_cases new : ∃ v, (hash, v) ∈ skipRepeats Prod.fst emptyHash sorted
        · obtain ⟨v, member⟩ := new
          rw [(holds hash).1 v member] at found
          rw [← Option.some.inj found]
          exact right hash v member
        · rw [(holds hash).2 fun v member => new ⟨v, member⟩] at found
          exact sound.stored hash txouts found
      · obtain ⟨kept, inKept, key⟩ := skipRepeats_keys Prod.fst (sorts.1.mem_iff.mpr member) nonzero
        rw [← key, (holds kept.1).1 kept.2 inKept]
        rfl
    · cases step
  · cases step

theorem Sound.flushed (sound : Sound outs disk blocks s) (step : s.next .flushed = some t) :
    Sound outs disk blocks t := by
  rw [next] at step
  split at step
  · next flush running =>
    split at step
    · next written =>
      cases Option.some.inj step
      exact { sound with
        previous := by
          intro hash entry found
          obtain ⟨live, opposite, pending⟩ := sound.previous hash entry found
          refine ⟨live, opposite, fun nonzero => Or.inl ?_⟩
          refine (pending nonzero).resolve_right ?_
          rintro ⟨other, same, unwritten, _⟩
          rw [running] at same
          cases Option.some.inj same
          rw [written] at unwritten
          cases unwritten
        flush := by
          intro other same
          cases same }
    · cases step
  · cases step

/-- The swap: the transactions of the finished flush are all on disk, and those of
the batch move to the previous buffers while their arena stays. -/
theorem Sound.swap (sound : Sound outs disk blocks s) (step : s.next .swap = some t) : Sound outs disk blocks t := by
  rw [next] at step
  split at step
  · next guard =>
    obtain ⟨idle, finished⟩ := guard
    have idle := Option.isNone_iff_eq_none.mp idle
    cases Option.some.inj step
    obtain ⟨front, split, available⟩ := sound.received
    have arenaStays : s.currentArena ≠ !s.currentArena := by cases s.currentArena <;> decide
    have sameGeneration : (if s.currentArena = !s.currentArena then s.generation s.currentArena + 1
        else s.generation s.currentArena) = s.generation s.currentArena := if_neg arenaStays
    exact {
      received := by
        refine ⟨front, split, fun tx member nonzero => ?_⟩
        rcases available tx member nonzero with onDisk | inMemory
        · exact Or.inl onDisk
        · rcases find_isSome.mp inMemory with inCurrent | inPrevious
          · exact Or.inr (find_isSome.mpr (Or.inr inCurrent))
          · obtain ⟨entry, found⟩ := Option.isSome_iff_exists.mp inPrevious
            refine Or.inl (((sound.previous _ entry found).2.2 nonzero).resolve_right ?_)
            rintro ⟨flush, running, _⟩
            rw [idle] at running
            cases running
      kept := sound.kept
      stored := sound.stored
      current := by
        intro hash entry found
        cases found
      previous := by
        intro hash entry found
        obtain ⟨⟨same, generation⟩, arena, inBatch⟩ := sound.current hash entry found
        refine ⟨⟨same, ?_⟩, by rw [arena, Bool.not_not], fun nonzero => Or.inr ⟨_, rfl, rfl, inBatch nonzero⟩⟩
        rw [generation, arena]
        exact sameGeneration.symm
      batch := fun _ member => (List.not_mem_nil member).elim
      flush := by
        intro flush same
        cases Option.some.inj same
        exact ⟨(Bool.not_not _).symm, sameGeneration.symm, sound.batch⟩
      tasks := fun _ member => (List.not_mem_nil member).elim
      passed := sound.passed
      quiet := sound.quiet }
  · cases step

theorem Sound.step {event : PipelineEvent} (input : Spendable outs disk blocks) (sound : Sound outs disk blocks s)
    (aligned : s.Aligned event) (step : Step s event t) : Sound outs disk blocks t := by
  cases event with
  | insert => exact sound.insert input step
  | fetch position => exact sound.fetch step
  | load position lookup => exact sound.load step
  | assemble position => exact sound.assemble aligned step
  | write sorted => exact sound.write step
  | flushed => exact sound.flushed step
  | swap => exact sound.swap step

/-- In every run whose assemblies are aligned, nothing panics, nothing is read after
it was cleared, and each input was given the output it refers to. -/
theorem resolved_of_run {events : List PipelineEvent} (input : Spendable outs disk blocks)
    (run : Run (Guarded Aligned Step) (start disk blocks) events s) :
    s.panicked = false ∧ ∀ block deps, (block, deps) ∈ s.passed → Resolved outs block deps := by
  have sound : Sound outs disk blocks s :=
    run.invariant (sound_start input) fun _ _ _ before guarded => before.step input guarded.1 guarded.2
  exact ⟨sound.quiet, sound.passed⟩

/-! Transactions named by a byte, each with one output of that value. -/

def byteOuts (hash : Hash) : List TxOut :=
  [⟨(hash.1.headD 0).toUInt64, []⟩]

def byteTx (name : UInt8) (inputs : List UInt8) : Tx where
  version := 1
  locktime := 0
  txins := inputs.map fun input => ⟨ByteArr.fill 32 input, 0, 0, []⟩
  txouts := byteOuts (ByteArr.fill 32 name)
  witnessData := none
  hash := ByteArr.fill 32 name
  witnessHash := ByteArr.fill 32 name

def byteBlock (name : UInt8) (txs : List Tx) : Block :=
  ⟨⟨1, emptyHash, emptyHash, 0, 0, 0, 0, ByteArr.fill 32 name⟩, txs⟩

/-- Transactions 1 and 2 are on disk. -/
def byteDisk (hash : Hash) : Option (List TxOut) :=
  if hash = ByteArr.fill 32 1 ∨ hash = ByteArr.fill 32 2 then some (byteOuts hash) else none

theorem byteDisk_stored (hash : Hash) (txouts : List TxOut) (found : byteDisk hash = some txouts) :
    txouts = byteOuts hash := by
  unfold byteDisk at found
  split at found
  · exact (Option.some.inj found).symm
  · cases found

/-- The block spends outputs of 1 and 2; the next spends one of its transactions. -/
def chainedBlocks : List Block :=
  [byteBlock 10 [byteTx 3 [0], byteTx 4 [1, 2]], byteBlock 11 [byteTx 5 [0], byteTx 6 [4, 2, 5]]]

def chainedEvents : List PipelineEvent :=
  [.insert, .fetch 0, .load 0 1, .load 0 0, .assemble 0, .swap, .insert, .fetch 0,
    .write (batchTxouts (chainedBlocks.take 1)), .load 0 0, .flushed, .assemble 0]

theorem resolved_of_run_chained :
    (after next (start byteDisk chainedBlocks) chainedEvents).panicked = false ∧
      ∀ block deps, (block, deps) ∈ (after next (start byteDisk chainedBlocks) chainedEvents).passed →
        Resolved byteOuts block deps := by
  have input : Spendable byteOuts byteDisk chainedBlocks := ⟨byteDisk_stored, by decide, by decide⟩
  exact resolved_of_run input (Run.of_guarded_after (fun _ _ _ taken => taken) (by decide))

/-- The first block spends outputs of 1 and 2, and the second contains 1 again. -/
def repeatingBlocks : List Block :=
  [byteBlock 10 [byteTx 3 [0], byteTx 4 [1, 2]], byteBlock 11 [byteTx 1 [0]]]

def repeatingEvents : List PipelineEvent :=
  [.insert, .fetch 0, .load 0 0, .load 0 1, .insert, .assemble 0]

/-- The repeated transaction arrives between the lookups and the assembly: the second
input of the first block is given the output of 1. -/
theorem resolved_of_run_fails :
    ¬ ∀ (outs : Hash → List TxOut) (disk : Hash → Option (List TxOut)) (blocks : List Block)
      (events : List PipelineEvent) (s : Pipeline), Spendable outs disk blocks →
        Run Step (start disk blocks) events s →
          s.panicked = false ∧ ∀ block deps, (block, deps) ∈ s.passed → Resolved outs block deps := by
  intro claim
  have run : Run Step (start byteDisk repeatingBlocks) repeatingEvents _ :=
    Run.of_after (fun _ _ _ taken => taken) (by decide)
  have resolved := (claim byteOuts _ _ _ _ ⟨byteDisk_stored, by decide, by decide⟩ run).2
    (byteBlock 10 [byteTx 3 [0], byteTx 4 [1, 2]])
    [[], [⟨1, []⟩, ⟨1, []⟩]] (by decide)
  have second := (List.forall₂_cons.mp (List.forall₂_cons.mp resolved).2).1
  have wrong := (List.forall₂_cons.mp (List.forall₂_cons.mp second).2).1
  revert wrong
  unfold Refers
  decide

end Pipeline

end Bitlens

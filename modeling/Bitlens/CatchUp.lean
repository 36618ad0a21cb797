import Bitlens.AnalysisPaths
import Bitlens.TxPage

namespace Bitlens
open Lib

/-! The block writer with the stores. -/

/-- `current` are the records of the batch under construction, none for a block until its task has put them in,
and `flushing` those of the batch that is flushed; `flushed` are the blocks of the written batches. -/
structure CatchUp where
  pipeline : Pipeline
  stores : Stores
  current : List AnalyzedBlock
  flushing : List AnalyzedBlock
  flushed : List Block

/-- `room` is whether the arena of the batch has the memory for the analysis. -/
inductive CatchUpEvent where
  | insert
  | fetch (task : Nat)
  | load (task lookup : Nat)
  | analyze (task : Nat) (room : Bool)
  | write
  | flushed
  | swap

/-- The records that `process_block` puts in with these dependencies; none when it panics, for want of memory too. -/
def processedRecords (p : Profile) (scripts : Scripts) (room : Bool) (block : Block) (deps : List (List TxOut)) :
    List SerializedTx :=
  match analyzeSpending p scripts block.header (block.txs.zip deps) 0 0, block.txs.head?.bind (·.txins.head?) with
  | .ok (records, _), some _ => if room then records else []
  | _, _ => []

namespace CatchUp

def start (blocks : List Block) : CatchUp where
  pipeline := .start (fun _ => none) blocks
  stores := .empty
  current := []
  flushing := []
  flushed := []

/-- The records after a task has assembled the dependencies of its block, or has panicked. -/
def filled (p : Profile) (scripts : Scripts) (s : CatchUp) (task : Nat) (room : Bool) (next : Pipeline) : List AnalyzedBlock :=
  match next.passed.drop s.pipeline.passed.length with
  | (block, deps) :: _ => s.current.set task ⟨block.header.hash, processedRecords p scripts room block deps⟩
  | [] => s.current

/-- A batch is flushed with the records that are there, whatever its tasks did. A panic of the flush has no step. -/
def Step (p : Profile) (scripts : Scripts) (s : CatchUp) (event : CatchUpEvent) (t : CatchUp) : Prop :=
  match event with
  | .insert => ∃ next, s.pipeline.next .insert = some next ∧ t = { s with
      pipeline := next
      current := s.current ++ (s.pipeline.incoming.take 1).map fun block => ⟨block.header.hash, []⟩ }
  | .fetch task => ∃ next, s.pipeline.next (.fetch task) = some next ∧ t = { s with pipeline := next }
  | .load task lookup => ∃ next, s.pipeline.next (.load task lookup) = some next ∧ t = { s with pipeline := next }
  | .analyze task room => ∃ next, s.pipeline.next (.assemble task) = some next ∧
      t = { s with pipeline := next, current := s.filled p scripts task room next }
  | .write => ∃ flush, s.pipeline.flush = some flush ∧ flush.written = false ∧
      if flush.generation = s.pipeline.generation flush.arena then
        ∃ stores, StoresBatch p s.flushing s.stores stores ∧ t = { s with
          pipeline := { s.pipeline with disk := storedOutputs stores.txouts, flush := some { flush with written := true } }
          stores := stores
          flushed := s.flushed ++ flush.batch }
      else t = { s with pipeline := { s.pipeline with panicked := true } }
  | .flushed => ∃ next, s.pipeline.next .flushed = some next ∧ t = { s with pipeline := next }
  | .swap => ∃ next, s.pipeline.next .swap = some next ∧
      t = { s with pipeline := next, current := [], flushing := s.current }

/-- The condition of a step: the arena has the memory for the analysis. -/
def Roomy (_ : CatchUp) : CatchUpEvent → Prop
  | .analyze _ room => room = true
  | _ => True

end CatchUp

/-- Blocks as the consensus rules promise them: a hash fixes the outputs of its transaction, two blocks are apart,
and each input spends an output from before it. The blocks in `repeated` may have a transaction in common, which
then no input spends. -/
structure LawfulBlocks (repeated : Hash → Prop) (blocks : List Block) : Prop where
  hashes : (blocks.map (·.header.hash)).Nodup
  count : ∀ block ∈ blocks, block.txs.length < 2 ^ 40
  readable : ∀ block ∈ blocks, ∀ tx ∈ block.txs, tx.Readable
  nonzero : ∀ block ∈ blocks, ∀ tx ∈ block.txs, tx.hash ≠ emptyHash
  distinct : ∀ block ∈ blocks, (block.txs.map (·.hash)).Nodup
  names : ∀ tx ∈ blocks.flatMap (·.txs), ∀ other ∈ blocks.flatMap (·.txs), tx.hash = other.hash → tx.txouts = other.txouts
  apart : blocks.Pairwise fun earlier later =>
    ¬ repeated earlier.header.hash ∨ ¬ repeated later.header.hash → earlier.Apart later
  funded : ∀ front block back, blocks = front ++ block :: back → ∀ before tx after, block.txs = before ++ tx :: after →
    tx.isCoinbase = false → ∀ txin ∈ tx.txins, ∃ source,
      (source ∈ before ∨ ∃ funder ∈ front, ¬ repeated funder.header.hash ∧ source ∈ funder.txs) ∧
        source.hash = txin.prevoutHash ∧ txin.prevoutIndex.toNat < source.txouts.length

/-- The outputs of the transaction with a hash. -/
def outsOf (blocks : List Block) (hash : Hash) : List TxOut :=
  (((blocks.flatMap (·.txs)).find? fun tx => tx.hash = hash).map (·.txouts)).getD []

/-- The analysis of the block returns with the outputs that its inputs refer to. -/
structure Works (p : Profile) (scripts : Scripts) (blocks : List Block) (block : Block) : Prop where
  coinbase : ∃ first ∈ block.txs.head?, first.txins ≠ []
  analyses : ∀ deps, Resolved (outsOf blocks) block deps → Analyses p scripts block deps

variable {p : Profile} {scripts : Scripts} {repeated : Hash → Prop} {blocks : List Block} {block : Block}

theorem LawfulBlocks.outsOf_eq (lawful : LawfulBlocks repeated blocks) (inBlocks : block ∈ blocks) {tx : Tx}
    (member : tx ∈ block.txs) : outsOf blocks tx.hash = tx.txouts := by
  have inTxs : tx ∈ blocks.flatMap (·.txs) := List.mem_flatMap.mpr ⟨block, inBlocks, member⟩
  have present : ((blocks.flatMap (·.txs)).find? fun other => other.hash = tx.hash).isSome :=
    List.find?_isSome.mpr ⟨tx, inTxs, decide_eq_true rfl⟩
  obtain ⟨other, found⟩ := Option.isSome_iff_exists.mp present
  have same : other.hash = tx.hash := by simpa using List.find?_some found
  rw [outsOf, found, Option.map_some, Option.getD_some]
  exact lawful.names other (List.mem_of_find?_eq_some found) tx inTxs same

/-- The input of the block writer is as the dependencies need it. -/
theorem LawfulBlocks.spendable (lawful : LawfulBlocks repeated blocks) : Spendable (outsOf blocks) (fun _ => none) blocks where
  stored := nofun
  created block inBlocks tx member := (lawful.outsOf_eq inBlocks member).symm
  earlier n inRun i inBlock txin depends := by
    have split : blocks = blocks.take n ++ blocks[n] :: blocks.drop (n + 1) := by
      rw [List.getElem_cons_drop, List.take_append_drop]
    have txs : blocks[n].txs = blocks[n].txs.take i ++ blocks[n].txs[i] :: blocks[n].txs.drop (i + 1) := by
      rw [List.getElem_cons_drop, List.take_append_drop]
    have other : blocks[n].txs[i].isCoinbase = false := by
      by_contra coinbase
      rw [Tx.isCoinbase_dependents (Bool.eq_true_of_not_eq_false coinbase)] at depends
      cases depends
    obtain ⟨source, place, named, inside⟩ :=
      lawful.funded _ _ _ split _ _ _ txs other txin (List.mem_of_mem_filter depends)
    rcases place with own | ⟨funder, inFront, _, member⟩
    · have outs := lawful.outsOf_eq (List.getElem_mem inRun) (List.mem_of_mem_take own)
      rw [← named, outs]
      exact ⟨inside, Or.inr ⟨source, List.mem_append_right _ own, rfl⟩⟩
    · have outs := lawful.outsOf_eq (List.mem_of_mem_take inFront) member
      rw [← named, outs]
      exact ⟨inside, Or.inr ⟨source, List.mem_append_left _ (List.mem_flatMap.mpr ⟨funder, inFront, member⟩), rfl⟩⟩

theorem processedRecords_eq {deps : List (List TxOut)} {records : List SerializedTx} {totals : Nat × Nat}
    (inputs : ∃ first ∈ block.txs.head?, first.txins ≠ [])
    (analyzed : analyzeSpending p scripts block.header (block.txs.zip deps) 0 0 = .ok (records, totals)) :
    processedRecords p scripts true block deps = records := by
  obtain ⟨first, atFirst, inputs⟩ := inputs
  obtain ⟨coinbase, atCoinbase⟩ := Option.isSome_iff_exists.mp (List.isSome_head?.mpr inputs)
  simp only [processedRecords, analyzed, Option.mem_def.mp atFirst, Option.bind_some, atCoinbase, if_true]

/-- The records of a block that works. -/
theorem analyzesBlock_of_processed {deps : List (List TxOut)} (works : Works p scripts blocks block)
    (resolved : Resolved (outsOf blocks) block deps) :
    AnalyzesBlock p scripts block ⟨block.header.hash, processedRecords p scripts true block deps⟩ := by
  obtain ⟨⟨records, totals⟩, analyzed⟩ := analyses_iff.mp (works.analyses deps resolved)
  rw [processedRecords_eq works.coinbase analyzed]
  refine ⟨rfl, ?_⟩
  have lengths : ∀ pair ∈ block.txs.zip deps, pair.2.length ≤ pair.1.txins.length := by
    rintro ⟨tx, txDeps⟩ member
    rw [← (List.forall₂_zip resolved member).length_eq]
    exact List.length_filter_le _ _
  have each := ((List.forall₂_and_left _ _).mpr ⟨lengths, analyzeSpending_records analyzed⟩).imp fun pair record found =>
    show AnalyzesTx p scripts block.header pair.1 record from ⟨pair.2, found⟩
  rwa [← List.forall₂_map_left_iff, List.map_fst_zip (le_of_eq resolved.length_eq)] at each

/-- After a call, a hash has the outputs that it had, or those of a transaction of the call's blocks. -/
theorem Overwrites.storedOutputs_cases {batch : List Block} {records : List AnalyzedBlock} {before after : Stores}
    (writes : Overwrites records before after) (analyzes : List.Forall₂ (AnalyzesBlock p scripts) batch records)
    (readable : ∀ block ∈ batch, ∀ tx ∈ block.txs, tx.Readable)
    (nonzero : ∀ block ∈ batch, ∀ tx ∈ block.txs, tx.hash ≠ emptyHash) (hash : Hash) :
    (∀ block ∈ batch, ∀ tx ∈ block.txs, tx.hash ≠ hash) ∧
        storedOutputs after.txouts hash = storedOutputs before.txouts hash ∨
      ∃ block ∈ batch, ∃ tx ∈ block.txs, tx.hash = hash ∧ storedOutputs after.txouts hash = some tx.txouts := by
  by_cases written : ∃ record ∈ records.flatMap (·.txs), record.hash = hash
  · obtain ⟨record, member, rfl⟩ := written
    have origin : ∀ record ∈ records.flatMap (·.txs), ∃ block ∈ batch, ∃ tx ∈ block.txs,
        AnalyzesTx p scripts block.header tx record := by
      intro record member
      obtain ⟨analyzed, inRecords, inAnalyzed⟩ := List.mem_flatMap.mp member
      obtain ⟨block, inBatch, each⟩ := exists_left analyzes inRecords
      obtain ⟨tx, inBlock, eachTx⟩ := exists_left each.2 inAnalyzed
      exact ⟨block, inBatch, tx, inBlock, eachTx⟩
    obtain ⟨block, inBatch, tx, inBlock, each⟩ := origin record member
    obtain ⟨one, inOne, same, found⟩ := writes.outputs record member (each.hash ▸ nonzero block inBatch tx inBlock)
    obtain ⟨block', inBatch', tx', inBlock', each'⟩ := origin one inOne
    rw [← same, each'.hash] at found
    refine Or.inr ⟨block', inBatch', tx', inBlock', each'.hash.symm.trans same, ?_⟩
    rw [← same, each'.hash, storedOutputs, each'.getTransactionOutputs (readable block' inBatch' tx' inBlock') found]
  · refine Or.inl ⟨fun block inBatch tx inBlock same => written ?_, ?_⟩
    · obtain ⟨analyzed, inRecords, each⟩ := exists_right analyzes inBatch
      obtain ⟨record, inAnalyzed, eachTx⟩ := exists_right each.2 inBlock
      exact ⟨record, List.mem_flatMap.mpr ⟨analyzed, inRecords, inAnalyzed⟩, eachTx.hash.trans same⟩
    · have old := (writes.old hash fun record member same => written ⟨record, member, same⟩).2
      simp only [storedOutputs, getTransactionOutputs, old]

section Batch

variable {front batch back : List Block} {records : List AnalyzedBlock}

theorem LawfulBlocks.nodup_records (lawful : LawfulBlocks repeated blocks) (split : blocks = front ++ batch ++ back)
    (analyzes : List.Forall₂ (AnalyzesBlock p scripts) batch records) : (records.map (·.hash)).Nodup := by
  have hashes := lawful.hashes
  rw [split, List.map_append, List.map_append] at hashes
  have own := (hashes.sublist (List.sublist_append_left _ _)).sublist (List.sublist_append_right _ _)
  have pairs := (List.forall₂_map_right_iff.mpr (List.forall₂_map_left_iff.mpr
    (analyzes.imp fun block analyzed each => each.1.symm)) :
      List.Forall₂ Eq (batch.map (·.header.hash)) (records.map (·.hash)))
  rw [List.forall₂_eq_eq_eq] at pairs
  rwa [← pairs]

/-- Two blocks of which one is not in `repeated` have no transaction in common. -/
theorem LawfulBlocks.txs_apart {one two : Block} (lawful : LawfulBlocks repeated blocks) (inOne : one ∈ blocks)
    (inTwo : two ∈ blocks) (other : one.header.hash ≠ two.header.hash) (once : ¬ repeated two.header.hash) {tx tx' : Tx}
    (member : tx ∈ one.txs) (member' : tx' ∈ two.txs) : tx.hash ≠ tx'.hash := by
  obtain ⟨front, back, rfl⟩ := List.append_of_mem inTwo
  obtain ⟨_, apart, across⟩ := List.pairwise_append.mp lawful.apart
  rcases List.mem_append.mp inOne with before | behind
  · exact (across one before two List.mem_cons_self (Or.inr once)).txs tx member tx' member'
  · rcases List.mem_cons.mp behind with rfl | behind
    · exact absurd rfl other
    · exact (((List.pairwise_cons.mp apart).1 one behind (Or.inl once)).txs tx' member' tx member).symm

/-- Of the records of a batch, only its own one has the hash of a transaction in no other block. -/
theorem LawfulBlocks.own_record {analyzed : AnalyzedBlock} (lawful : LawfulBlocks repeated blocks)
    (split : blocks = front ++ batch ++ back) (analyzes : List.Forall₂ (AnalyzesBlock p scripts) batch records)
    (inBatch : block ∈ batch) (once : ¬ repeated block.header.hash) (inRecords : analyzed ∈ records)
    (each : AnalyzesBlock p scripts block analyzed) :
    ∀ record ∈ analyzed.txs, ∀ other ∈ records.flatMap (·.txs), other.hash = record.hash → other = record := by
  intro record member other written same
  obtain ⟨analyzed', inRecords', inAnalyzed'⟩ := List.mem_flatMap.mp written
  obtain ⟨block', inBatch', each'⟩ := exists_left analyzes inRecords'
  have inBlocks : ∀ {one}, one ∈ batch → one ∈ blocks := fun inBatch => by simp [split, inBatch]
  by_cases alike : block'.header.hash = block.header.hash
  · have records : analyzed' = analyzed := List.inj_on_of_nodup_map (lawful.nodup_records split analyzes) inRecords'
      inRecords (each'.1.trans (alike.trans each.1.symm))
    rw [records] at inAnalyzed'
    exact List.inj_on_of_nodup_map (each.hashes ▸ lawful.distinct block (inBlocks inBatch)) inAnalyzed' member same
  · obtain ⟨tx, inBlock, eachTx⟩ := exists_left each.2 member
    obtain ⟨tx', inBlock', eachTx'⟩ := exists_left each'.2 inAnalyzed'
    rw [eachTx.hash, eachTx'.hash] at same
    exact absurd same (lawful.txs_apart (inBlocks inBatch') (inBlocks inBatch) alike once inBlock' inBlock)

end Batch

namespace CatchUp

variable {s t : CatchUp}

/-- The blocks that are being flushed and not written. -/
def pending (s : CatchUp) : List Block :=
  match s.pipeline.flush with
  | some flush => if flush.written then [] else flush.batch
  | none => []

def OwnInMemory (s : Pipeline) (block : Block) : Prop :=
  ∀ tx ∈ block.txs, (s.find tx.hash).isSome

/-- What is there for a block: its task, which looked up on disk what does not come into memory, or its records. -/
def Filled (p : Profile) (scripts : Scripts) (s : Pipeline) (block : Block) (record : AnalyzedBlock) : ProcessTask → Prop
  | .spawned other => other = block ∧ OwnInMemory s block
  | .fetching other lookups _ => other = block ∧ OwnInMemory s block ∧ ∀ txin ∈ lookups,
      txin ∈ dependents (block.txs.flatMap (·.txins)) ∧ s.find txin.prevoutHash = none
  | .done => AnalyzesBlock p scripts block record

/-- What holds between any two steps. -/
structure Sound (p : Profile) (scripts : Scripts) (repeated : Hash → Prop) (blocks : List Block) (s : CatchUp) : Prop where
  sound : Pipeline.Sound (outsOf blocks) (fun _ => none) blocks s.pipeline
  disk : s.pipeline.disk = storedOutputs s.stores.txouts
  split : blocks = s.flushed ++ s.pending ++ s.pipeline.batch ++ s.pipeline.incoming
  taskCount : s.pipeline.tasks.length = s.pipeline.batch.length
  recordCount : s.current.length = s.pipeline.batch.length
  filled : ∀ (i : Nat) block record task, s.pipeline.batch[i]? = some block → s.current[i]? = some record →
    s.pipeline.tasks[i]? = some task → Filled p scripts s.pipeline block record task
  flushing : ∀ flush, s.pipeline.flush = some flush → flush.written = false →
    List.Forall₂ (AnalyzesBlock p scripts) flush.batch s.flushing
  recorded : ∀ block ∈ s.flushed, ¬ repeated block.header.hash → Recorded p scripts s.stores block
  origin : ∀ outpoint value, s.stores.spends outpoint = some value → ∃ block ∈ s.flushed, block.Spends outpoint value

theorem sound_start (lawful : LawfulBlocks repeated blocks) : (start blocks).Sound p scripts repeated blocks where
  sound := Pipeline.sound_start lawful.spendable
  disk := rfl
  split := rfl
  taskCount := rfl
  recordCount := rfl
  filled := nofun
  flushing := nofun
  recorded := nofun
  origin := nofun

/-! The steps of a task. -/

/-- A task gets to its next state, perhaps with the records of its block. -/
theorem Sound.setTask {position : Nat} {task : ProcessTask} {passed : List (Block × List (List TxOut))}
    {current : List AnalyzedBlock} (sound : s.Sound p scripts repeated blocks)
    (after : Pipeline.Sound (outsOf blocks) (fun _ => none) blocks
      { s.pipeline with tasks := s.pipeline.tasks.set position task, passed := passed })
    (length : current.length = s.current.length) (others : ∀ i, i ≠ position → current[i]? = s.current[i]?)
    (here : ∀ block record, s.pipeline.batch[position]? = some block → current[position]? = some record →
      Filled p scripts s.pipeline block record task) :
    Sound p scripts repeated blocks { s with
      pipeline := { s.pipeline with tasks := s.pipeline.tasks.set position task, passed := passed }
      current := current } := by
  refine ⟨after, sound.disk, sound.split, (List.length_set ..).trans sound.taskCount, length.trans sound.recordCount,
    fun i block record other inBatch atRecord atTask => ?_, sound.flushing, sound.recorded, sound.origin⟩
  by_cases same : i = position
  · subst same
    have inRange : i < s.pipeline.tasks.length := by
      rw [sound.taskCount]
      exact (List.getElem?_eq_some_iff.mp inBatch).1
    dsimp only at atTask
    rw [List.getElem?_set_self inRange] at atTask
    cases atTask
    exact here block record inBatch atRecord
  · dsimp only at atRecord atTask
    rw [others i same] at atRecord
    rw [List.getElem?_set_ne (Ne.symm same)] at atTask
    exact sound.filled i block record other inBatch atRecord atTask

theorem Sound.fetch {position : Nat} {next : Pipeline} (sound : s.Sound p scripts repeated blocks)
    (step : s.pipeline.next (.fetch position) = some next) :
    Sound p scripts repeated blocks { s with pipeline := next } := by
  have after := sound.sound.fetch step
  rw [Pipeline.next] at step
  split at step
  · next block atTask =>
    cases step
    refine sound.setTask after rfl (fun _ _ => rfl) fun other record inBatch atRecord => ?_
    obtain ⟨rfl, own⟩ := sound.filled _ _ _ _ inBatch atRecord atTask
    refine ⟨rfl, own, fun txin member => ?_⟩
    obtain ⟨inTxins, both⟩ := List.mem_filter.mp member
    rw [Bool.and_eq_true, Option.isNone_iff_eq_none] at both
    exact ⟨List.mem_filter.mpr ⟨inTxins, both.1⟩, both.2⟩
  · cases step

theorem Sound.load {position lookup : Nat} {next : Pipeline} (sound : s.Sound p scripts repeated blocks)
    (step : s.pipeline.next (.load position lookup) = some next) :
    Sound p scripts repeated blocks { s with pipeline := next } := by
  have after := sound.sound.load step
  rw [Pipeline.next] at step
  split at step
  · next block lookups loadedDeps atTask =>
    split at step
    · cases step
    · split at step
      · cases step
        refine sound.setTask after rfl (fun _ _ => rfl) fun other record inBatch atRecord => ?_
        obtain ⟨same, own, absent⟩ := sound.filled _ _ _ _ inBatch atRecord atTask
        exact ⟨same, own, absent⟩
      · cases step
        cases after.quiet
  · cases step

/-- What a task looked up is not in memory when it assembles. -/
theorem Sound.aligned (sound : s.Sound p scripts repeated blocks) (position : Nat) :
    s.pipeline.Aligned (.assemble position) := by
  rw [Pipeline.Aligned]
  cases atTask : s.pipeline.tasks[position]? with
  | none => trivial
  | some task =>
    cases task with
    | fetching block lookups loadedDeps =>
      have inRange := (List.getElem?_eq_some_iff.mp atTask).1
      have inBatch := List.getElem?_eq_getElem (sound.taskCount ▸ inRange)
      have atRecord := List.getElem?_eq_getElem (sound.recordCount.symm ▸ sound.taskCount ▸ inRange)
      obtain ⟨_, _, absent⟩ := sound.filled _ _ _ _ inBatch atRecord atTask
      have whole : (lookups.filter fun txin => (s.pipeline.find txin.prevoutHash).isNone) = lookups :=
        List.filter_eq_self.mpr fun txin member => by rw [(absent txin member).2]; rfl
      rw [Pipeline.Prefixed, whole]
    | spawned block => trivial
    | done => trivial

theorem Sound.analyze {position : Nat} {next : Pipeline} (sound : s.Sound p scripts repeated blocks)
    (works : ∀ block ∈ blocks, Works p scripts blocks block) (step : s.pipeline.next (.assemble position) = some next) :
    Sound p scripts repeated blocks { s with pipeline := next, current := s.filled p scripts position true next } := by
  have after := sound.sound.assemble (sound.aligned position) step
  rw [Pipeline.next] at step
  split at step
  · next block lookups loadedDeps atTask =>
    split at step
    · split at step
      · next deps assembled =>
        cases step
        have grown : s.filled p scripts position true { s.pipeline with
            tasks := s.pipeline.tasks.set position .done, passed := s.pipeline.passed ++ [(block, deps)] } =
            s.current.set position ⟨block.header.hash, processedRecords p scripts true block deps⟩ := by
          rw [CatchUp.filled, List.drop_left]
        rw [grown]
        refine sound.setTask after (List.length_set ..) (fun i other => List.getElem?_set_ne (Ne.symm other)) ?_
        intro other record inBatch atRecord
        have inRange : position < s.current.length := by
          rw [sound.recordCount]
          exact (List.getElem?_eq_some_iff.mp inBatch).1
        rw [List.getElem?_set_self inRange] at atRecord
        cases atRecord
        obtain ⟨rfl, _⟩ := sound.filled _ _ _ _ inBatch (List.getElem?_eq_getElem inRange) atTask
        have inBlocks : block ∈ blocks := by
          rw [sound.split]
          simp [List.mem_of_getElem? inBatch]
        exact analyzesBlock_of_processed (works block inBlocks)
          (after.passed block deps (List.mem_append_right _ (List.mem_singleton_self _)))
      · cases step
        cases after.quiet
    · cases step
  · cases step

/-! The steps of the writer. -/

theorem Pipeline.find_insert {s : Pipeline} {block : Block} {rest : List Block} {hash : Hash}
    (absent : ∀ tx ∈ block.txs, tx.hash ≠ hash) : Pipeline.find { s with
      incoming := rest
      currentTxouts := s.insertTransactions block
      batch := s.batch ++ [block]
      tasks := s.tasks ++ [.spawned block] } hash = s.find hash := by
  have same : s.insertTransactions block hash = s.currentTxouts hash := by
    cases found : s.insertTransactions block hash with
    | some entry =>
      rcases foldl_mapInsert_origin found with ⟨tx, member, named, _⟩ | before
      · exact absurd named (absent tx member)
      · exact before.symm
    | none =>
      by_contra other
      have present : (s.insertTransactions block hash).isSome :=
        foldl_mapInsert_isSome_of (Option.isSome_iff_ne_none.mpr (Ne.symm other))
      rw [found] at present
      cases present
  simp only [Pipeline.find, same]

/-- No transaction of a later block is one that a task of the batch has looked up. -/
theorem Sound.absent (sound : s.Sound p scripts repeated blocks) (lawful : LawfulBlocks repeated blocks) {block later : Block}
    {rest : List Block} {txin : TxIn} (incoming : s.pipeline.incoming = later :: rest) (inBatch : block ∈ s.pipeline.batch)
    (own : OwnInMemory s.pipeline block) (depends : txin ∈ dependents (block.txs.flatMap (·.txins)))
    (absent : s.pipeline.find txin.prevoutHash = none) : ∀ tx ∈ later.txs, tx.hash ≠ txin.prevoutHash := by
  obtain ⟨spent, nonzero⟩ := List.mem_filter.mp depends
  obtain ⟨tx, inBlock, inTxins⟩ := List.mem_flatMap.mp spent
  obtain ⟨before, after, txs⟩ := List.append_of_mem inBlock
  obtain ⟨front, back, batch⟩ := List.append_of_mem inBatch
  have split := sound.split
  rw [incoming, batch] at split
  have split : blocks = (s.flushed ++ s.pending ++ front) ++ block :: (back ++ later :: rest) := by
    rw [split]
    simp only [List.append_assoc, List.cons_append]
  have other : tx.isCoinbase = false := by
    by_contra coinbase
    have none := Tx.isCoinbase_dependents (Bool.eq_true_of_not_eq_false coinbase)
    have depends : txin ∈ dependents tx.txins := List.mem_filter.mpr ⟨inTxins, nonzero⟩
    rw [none] at depends
    cases depends
  obtain ⟨source, place, named, _⟩ := lawful.funded _ _ _ split _ _ _ txs other txin inTxins
  rcases place with here | ⟨funder, inFront, single, member⟩
  · have present := own source (txs ▸ List.mem_append_left _ here)
    rw [named, absent] at present
    cases present
  · intro tx' member' same
    have apart := lawful.apart
    rw [split] at apart
    have separate := (List.pairwise_append.mp apart).2.2 funder inFront later (by simp) (Or.inl single)
    exact separate.txs source member tx' member' (named.trans same.symm)

theorem Sound.insert {next : Pipeline} (sound : s.Sound p scripts repeated blocks) (lawful : LawfulBlocks repeated blocks)
    (step : s.pipeline.next .insert = some next) : Sound p scripts repeated blocks { s with
      pipeline := next
      current := s.current ++ (s.pipeline.incoming.take 1).map fun block => ⟨block.header.hash, []⟩ } := by
  have after := sound.sound.insert lawful.spendable step
  rw [Pipeline.next] at step
  split at step
  · cases step
  · next later rest incoming =>
    cases step
    have kept : ∀ hash, (s.pipeline.find hash).isSome → (Pipeline.find { s.pipeline with
        incoming := rest
        currentTxouts := s.pipeline.insertTransactions later
        batch := s.pipeline.batch ++ [later]
        tasks := s.pipeline.tasks ++ [.spawned later] } hash).isSome := by
      intro hash present
      rw [Pipeline.find_isSome] at present ⊢
      exact present.imp_left fun inCurrent => foldl_mapInsert_isSome_of inCurrent
    refine ⟨after, sound.disk, ?_, ?_, ?_, fun i block record task inBatch atRecord atTask => ?_, sound.flushing,
      sound.recorded, sound.origin⟩
    · have split := sound.split
      rw [incoming] at split
      rw [split]
      simp [pending]
    · simp [sound.taskCount]
    · simp [sound.recordCount, incoming]
    · dsimp only at inBatch atRecord atTask
      by_cases old : i < s.pipeline.batch.length
      · rw [List.getElem?_append_left old] at inBatch
        rw [List.getElem?_append_left (by rw [sound.recordCount]; exact old)] at atRecord
        rw [List.getElem?_append_left (by rw [sound.taskCount]; exact old)] at atTask
        have filled := sound.filled i block record task inBatch atRecord atTask
        cases task with
        | spawned other => exact ⟨filled.1, fun tx member => kept _ (filled.2 tx member)⟩
        | fetching other lookups loadedDeps =>
          obtain ⟨same, own, looked⟩ := filled
          refine ⟨same, fun tx member => kept _ (own tx member), fun txin member => ?_⟩
          obtain ⟨depends, absent⟩ := looked txin member
          refine ⟨depends, ?_⟩
          rw [Pipeline.find_insert (sound.absent lawful incoming (List.mem_of_getElem? inBatch) own depends absent)]
          exact absent
        | done => exact filled
      · have last : i = s.pipeline.batch.length := by
          have inRange := (List.getElem?_eq_some_iff.mp inBatch).1
          rw [List.length_append, List.length_singleton] at inRange
          omega
        subst last
        rw [List.getElem?_concat_length] at inBatch
        rw [← sound.taskCount, List.getElem?_concat_length] at atTask
        cases inBatch
        cases atTask
        exact ⟨rfl, fun tx member => Pipeline.find_isSome.mpr (Or.inl (foldl_mapInsert_isSome member))⟩

theorem Sound.flushed {next : Pipeline} (sound : s.Sound p scripts repeated blocks)
    (step : s.pipeline.next .flushed = some next) : Sound p scripts repeated blocks { s with pipeline := next } := by
  have after := sound.sound.flushed step
  rw [Pipeline.next] at step
  split at step
  · next flush running =>
    split at step
    · next written =>
      cases step
      have settled : s.pending = [] := by
        rw [pending, running]
        dsimp only
        rw [if_pos written]
      refine ⟨after, sound.disk, ?_, sound.taskCount, sound.recordCount, sound.filled, (fun _ absent => by cases absent),
        sound.recorded, sound.origin⟩
      have split := sound.split
      rw [settled] at split
      exact split
    · cases step
  · cases step

theorem Sound.swap {next : Pipeline} (sound : s.Sound p scripts repeated blocks)
    (step : s.pipeline.next .swap = some next) :
    Sound p scripts repeated blocks { s with pipeline := next, current := [], flushing := s.current } := by
  have after := sound.sound.swap step
  rw [Pipeline.next] at step
  split at step
  · next guard =>
    obtain ⟨idle, finished⟩ := guard
    cases step
    have settled : s.pending = [] := by
      rw [pending, Option.isNone_iff_eq_none.mp idle]
    refine ⟨after, sound.disk, ?_, rfl, rfl, (fun _ _ _ _ absent => by cases absent), fun flush running _ => ?_,
      sound.recorded, sound.origin⟩
    · have split := sound.split
      rw [settled, List.append_nil] at split
      simpa [pending] using split
    · cases running
      refine List.forall₂_iff_get.mpr ⟨sound.recordCount.symm, fun i inBatch inRecords => ?_⟩
      have inTasks : i < s.pipeline.tasks.length := by
        rw [sound.taskCount]
        exact inBatch
      have done : s.pipeline.tasks[i]? = some .done := by
        rw [List.getElem?_eq_getElem inTasks]
        have each := List.all_eq_true.mp finished _ (List.getElem_mem inTasks)
        cases atTask : s.pipeline.tasks[i] <;> rw [atTask] at each <;> first | rfl | cases each
      exact sound.filled i _ _ _ (List.getElem?_eq_getElem inBatch) (List.getElem?_eq_getElem inRecords) done
  · cases step

theorem Sound.write {flush : BatchFlush} {stores : Stores} (sound : s.Sound p scripts repeated blocks)
    (lawful : LawfulBlocks repeated blocks) (running : s.pipeline.flush = some flush) (unwritten : flush.written = false)
    (stored : StoresBatch p s.flushing s.stores stores) : Sound p scripts repeated blocks { s with
      pipeline := { s.pipeline with disk := storedOutputs stores.txouts, flush := some { flush with written := true } }
      stores := stores
      flushed := s.flushed ++ flush.batch } := by
  have analyzes := sound.flushing flush running unwritten
  have batch : s.pending = flush.batch := by
    rw [pending, running]
    dsimp only
    rw [unwritten]
    rfl
  have split := sound.split
  rw [batch, List.append_assoc _ s.pipeline.batch] at split
  have inBlocks : ∀ {one}, one ∈ flush.batch → one ∈ blocks := fun member => by rw [split]; simp [member]
  have writes := overwrites_of_storesBatch stored
  have cases := writes.storedOutputs_cases analyzes (fun one member => lawful.readable one (inBlocks member))
    fun one member => lawful.nonzero one (inBlocks member)
  have after : Pipeline.Sound (outsOf blocks) (fun _ => none) blocks { s.pipeline with
      disk := storedOutputs stores.txouts, flush := some { flush with written := true } } := by
    refine sound.sound.setDisk running (fun hash present => ?_) (fun hash txouts found => ?_) fun pair member nonzero => ?_
    · rcases cases hash with ⟨_, old⟩ | ⟨_, _, _, _, _, new⟩
      · rw [old, ← sound.disk]
        exact present
      · rw [new]
        rfl
    · rcases cases hash with ⟨_, old⟩ | ⟨one, inBatch, tx, inBlock, rfl, new⟩
      · rw [old, ← sound.disk] at found
        exact sound.sound.stored hash txouts found
      · rw [new] at found
        rw [lawful.outsOf_eq (inBlocks inBatch) inBlock]
        exact (Option.some.inj found).symm
    · obtain ⟨tx, inTxs, rfl⟩ := List.mem_map.mp member
      obtain ⟨one, inBatch, inBlock⟩ := List.mem_flatMap.mp inTxs
      rcases cases tx.hash with ⟨absent, _⟩ | ⟨_, _, _, _, _, new⟩
      · exact absurd rfl (absent one inBatch tx inBlock)
      · rw [new]
        rfl
  refine ⟨after, rfl, ?_, sound.taskCount, sound.recordCount, sound.filled, ?_, fun one member once => ?_, ?_⟩
  · rw [split]
    simp [pending]
  · intro other same unset
    cases same
    cases unset
  · rcases List.mem_append.mp member with old | new
    · refine (sound.recorded one old once).keep (fun later inBatch => ?_) analyzes writes
      have apart := lawful.apart
      rw [split, List.pairwise_append, List.pairwise_append] at apart
      exact apart.1.2.2 one old later inBatch (Or.inl once)
    · obtain ⟨analyzed, inRecords, each⟩ := exists_right analyzes new
      exact writes.recorded each inRecords (lawful.own_record split analyzes new once inRecords each)
        (lawful.nonzero one (inBlocks new))
  · intro outpoint value found
    rcases writes.spends_cases analyzes found with old | ⟨one, member, spends⟩
    · obtain ⟨one, member, spends⟩ := sound.origin outpoint value old
      exact ⟨one, List.mem_append_left _ member, spends⟩
    · exact ⟨one, List.mem_append_right _ member, spends⟩

theorem Sound.step {event : CatchUpEvent} (sound : s.Sound p scripts repeated blocks) (lawful : LawfulBlocks repeated blocks)
    (works : ∀ block ∈ blocks, Works p scripts blocks block) (room : s.Roomy event) (step : s.Step p scripts event t) :
    t.Sound p scripts repeated blocks := by
  cases event with
  | insert =>
    obtain ⟨next, step, rfl⟩ := step
    exact sound.insert lawful step
  | fetch task =>
    obtain ⟨next, step, rfl⟩ := step
    exact sound.fetch step
  | load task lookup =>
    obtain ⟨next, step, rfl⟩ := step
    exact sound.load step
  | analyze task fits =>
    obtain ⟨next, step, rfl⟩ := step
    obtain rfl : fits = true := room
    exact sound.analyze works step
  | write =>
    obtain ⟨flush, running, unwritten, step⟩ := step
    rw [if_pos (sound.sound.flush flush running).2.1] at step
    obtain ⟨stores, stored, rfl⟩ := step
    exact sound.write lawful running unwritten stored
  | flushed =>
    obtain ⟨next, step, rfl⟩ := step
    exact sound.flushed step
  | swap =>
    obtain ⟨next, step, rfl⟩ := step
    exact sound.swap step

theorem sound_of_run {events : List CatchUpEvent} (lawful : LawfulBlocks repeated blocks)
    (works : ∀ block ∈ blocks, Works p scripts blocks block)
    (run : Run (Guarded Roomy (Step p scripts)) (start blocks) events s) : s.Sound p scripts repeated blocks :=
  run.invariant (sound_start lawful) fun _ _ _ sound step => sound.step lawful works step.1 step.2

/-- The writer has received everything, and nothing is left to flush. -/
structure Finished (s : CatchUp) : Prop where
  incoming : s.pipeline.incoming = []
  batch : s.pipeline.batch = []
  flush : s.pipeline.flush = none

theorem Sound.flushed_all (sound : s.Sound p scripts repeated blocks) (finished : s.Finished) : s.flushed = blocks := by
  have split := sound.split
  rw [finished.incoming, finished.batch, pending, finished.flush] at split
  simpa using split.symm

end CatchUp

/-- The blocks are those of the main chain, from genesis on. -/
structure MainBlocks (w : Chainman) (blocks : List Block) : Prop where
  ordered : (blocks.map (·.header.hash)).Pairwise fun below above => BuiltOn w.chain.parentOf above below
  complete : ∀ hash, hash ∈ blocks.map (·.header.hash) ↔ w.chain.OnMain hash

/-- Behind the catch-up the chain watcher can start. -/
theorem CatchUp.Sound.ready {s : CatchUp} {w : Chainman} (sound : s.Sound p scripts repeated blocks)
    (lawful : LawfulBlocks repeated blocks) (finished : s.Finished) (topped : w.chain.Topped)
    (tracks : w.chain.TracksMain) (main : MainBlocks w blocks) :
    Ledger.Ready p scripts repeated ⟨⟨w, []⟩, s.stores, blocks⟩ := by
  have all := sound.flushed_all finished
  refine ⟨topped, tracks, rfl, main.ordered, main.complete, lawful.count, lawful.readable, ?_,
    lawful.apart.imp fun apart once => apart (Or.inl once), all ▸ sound.recorded, all ▸ sound.origin⟩
  intro block inBlocks txin spent
  obtain ⟨front, back, split⟩ : ∃ front back, blocks = front ++ block :: back := List.append_of_mem inBlocks
  obtain ⟨tx, inFilter, inTxins⟩ := List.mem_flatMap.mp spent
  obtain ⟨inBlock, other⟩ := List.mem_filter.mp inFilter
  obtain ⟨before, after, txs⟩ := List.append_of_mem inBlock
  obtain ⟨source, place, named, inside⟩ := lawful.funded _ _ _ split _ _ _ txs (by simpa using other) txin inTxins
  rcases place with own | ⟨funder, inFront, once, member⟩
  · exact ⟨block, source, Or.inl rfl, txs ▸ List.mem_append_left _ own, named, inside⟩
  · refine ⟨funder, source, Or.inr ⟨split ▸ List.mem_append_left _ inFront, once, ?_⟩, member, named, inside⟩
    have ordered := main.ordered
    rw [split, List.map_append, List.map_cons] at ordered
    exact (List.pairwise_append.mp ordered).2.2 _ (List.mem_map_of_mem inFront) _ List.mem_cons_self

/-- From empty stores on: when the tasks of the block writer have the memory that they need, then however the
batches are cut, and whatever the sorts make of them, the catch-up leaves each block of the main chain as the
watcher needs it, so that behind any further headers and lawful blocks it is served as it was written. -/
theorem serves_from_empty {sha256 : Bytes → Hash} {w : Chainman} {s : CatchUp} {catching : List CatchUpEvent}
    {events : List LedgerEvent} {t : Ledger} (lawful : LawfulBlocks repeated blocks)
    (works : ∀ block ∈ blocks, Works p scripts blocks block)
    (caught : Run (Guarded CatchUp.Roomy (CatchUp.Step p scripts)) (.start blocks) catching s) (finished : s.Finished)
    (topped : w.chain.Topped) (tracks : w.chain.TracksMain) (main : MainBlocks w blocks)
    (run : Run (Guarded (Ledger.Orderly p repeated) (Ledger.Step p sha256 scripts)) ⟨⟨w, []⟩, s.stores, s.flushed⟩
      events t) :
    s.pipeline.panicked = false ∧ ∀ hash, t.chainman.chain.OnMain hash → hash ∉ t.queue.map (·.hash) → ¬ repeated hash →
      ∃ block ∈ t.written, block.header.hash = hash ∧
        (∃ known, t.chainman.chain.knownHeaders hash = some known ∧
          getBlock t.chainman.chain t.stores hash true = .ok ⟨known.header, block.txs.map Tx.withoutTxouts⟩) ∧
        ∀ tx ∈ block.txs, getTransactionOutputs t.stores.txouts tx.hash = .ok tx.txouts := by
  have sound := CatchUp.sound_of_run lawful works caught
  rw [sound.flushed_all finished] at run
  exact ⟨sound.sound.quiet, fun hash => ((sound.ready lawful finished topped tracks main).run run).serves⟩

/-! Three blocks in batches of their own; the last one spends the coinbase of the one before it. -/

namespace CatchUp

variable {s : CatchUp} {previous : Hash → Option ArenaTxouts} {rest : List Block} {passed : List (Block × List (List TxOut))}
  {records : List SerializedTx}

/-- Runs of the block writer whose tasks have their memory. -/
def Reached (p : Profile) (scripts : Scripts) (blocks : List Block) (s : CatchUp) : Prop :=
  ∃ events, Run (Guarded Roomy (Step p scripts)) (start blocks) events s

theorem Reached.step {t : CatchUp} (event : CatchUpEvent) (reached : Reached p scripts blocks s) (room : s.Roomy event)
    (step : s.Step p scripts event t) : Reached p scripts blocks t := by
  obtain ⟨events, run⟩ := reached
  exact ⟨_, run.snoc ⟨room, step⟩⟩

/-- Nothing is at work. -/
structure Idle (s : CatchUp) (previous : Hash → Option ArenaTxouts) : Prop where
  batch : s.pipeline.batch = []
  tasks : s.pipeline.tasks = []
  flush : s.pipeline.flush = none
  current : s.current = []
  inCurrent : s.pipeline.currentTxouts = fun _ => none
  inPrevious : s.pipeline.previousTxouts = previous

/-- The state with the first block that comes as a batch of its own. -/
def working (s : CatchUp) (block : Block) (task : ProcessTask) (passed : List (Block × List (List TxOut)))
    (records : List SerializedTx) : CatchUp :=
  { s with
    pipeline := { s.pipeline with
      incoming := s.pipeline.incoming.tail
      currentTxouts := s.pipeline.insertTransactions block
      batch := [block]
      tasks := [task]
      passed := passed }
    current := [⟨block.header.hash, records⟩] }

theorem Reached.fetched (reached : Reached p scripts blocks s) (idle : s.Idle previous)
    (incoming : s.pipeline.incoming = block :: rest) (inMemory : ∀ txin ∈ dependents (block.txs.flatMap (·.txins)),
      (s.pipeline.insertTransactions block txin.prevoutHash).isSome ∨ (previous txin.prevoutHash).isSome) :
    Reached p scripts blocks (s.working block (.fetching block [] []) s.pipeline.passed []) := by
  have inserted : Reached p scripts blocks (s.working block (.spawned block) s.pipeline.passed []) := by
    refine reached.step .insert trivial ⟨_, by rw [Pipeline.next, incoming], ?_⟩
    simp only [working, incoming, idle.batch, idle.tasks, idle.current, List.tail_cons, List.nil_append,
      List.take_succ_cons, List.take_zero, List.map_cons, List.map_nil]
  refine inserted.step (.fetch 0) trivial ⟨_, rfl, ?_⟩
  have missing : (s.working block (.spawned block) s.pipeline.passed []).pipeline.missing block = [] := by
    rw [Pipeline.missing_eq]
    refine List.filter_eq_nil_iff.mpr fun txin depends => ?_
    have found : (Pipeline.find (s.working block (.spawned block) s.pipeline.passed []).pipeline txin.prevoutHash).isSome := by
      rw [Pipeline.find_isSome]
      exact (inMemory txin depends).imp_right fun old => by rw [working, idle.inPrevious]; exact old
    rw [Option.isNone_eq_false_iff.mpr found]
    exact Bool.false_ne_true
  rw [missing]
  rfl

theorem Reached.analyzed (lawful : LawfulBlocks repeated blocks) (works : ∀ block ∈ blocks, Works p scripts blocks block)
    (reached : Reached p scripts blocks (s.working block (.fetching block [] []) passed [])) :
    ∃ deps, Resolved (outsOf blocks) block deps ∧ Reached p scripts blocks
      (s.working block .done (passed ++ [(block, deps)]) (processedRecords p scripts true block deps)) := by
  obtain ⟨events, run⟩ := reached
  have sound := sound_of_run lawful works run
  cases assembled : (s.working block (.fetching block [] []) passed []).pipeline.assembleTxs [] block.txs 0 with
  | none =>
    have step : Pipeline.next (s.working block (.fetching block [] []) passed []).pipeline (.assemble 0) =
        some ((s.working block (.fetching block [] []) passed []).pipeline.fail 0) := by
      simp only [Pipeline.next, working] at assembled ⊢
      simp [assembled]
    cases (sound.sound.assemble (sound.aligned 0) step).quiet
  | some deps =>
    have step : Pipeline.next (s.working block (.fetching block [] []) passed []).pipeline (.assemble 0) =
        some (s.working block .done (passed ++ [(block, deps)]) []).pipeline := by
      simp only [Pipeline.next, working] at assembled ⊢
      simp [assembled]
    have after := sound.sound.assemble (sound.aligned 0) step
    refine ⟨deps, after.passed block deps (List.mem_append_right _ (List.mem_singleton_self _)), ?_⟩
    refine Reached.step (.analyze 0 true) ⟨events, run⟩ rfl ⟨_, step, ?_⟩
    have grown : (s.working block (.fetching block [] []) passed []).filled p scripts 0 true
        (s.working block .done (passed ++ [(block, deps)]) []).pipeline =
          [⟨block.header.hash, processedRecords p scripts true block deps⟩] := by
      rw [filled, working, working]
      dsimp only
      rw [List.drop_left]
      rfl
    rw [grown]
    rfl

/-- A batch of one block whose dependencies are in memory. -/
theorem Reached.batch_of_one (lawful : LawfulBlocks repeated blocks) (works : ∀ block ∈ blocks, Works p scripts blocks block)
    (keyed : scripts.Keyed) (reached : Reached p scripts blocks s) (idle : s.Idle previous)
    (incoming : s.pipeline.incoming = block :: rest) (once : block.outpoints.Nodup)
    (inMemory : ∀ txin ∈ dependents (block.txs.flatMap (·.txins)),
      (s.pipeline.insertTransactions block txin.prevoutHash).isSome ∨ (previous txin.prevoutHash).isSome)
    (made : ∀ deps, Resolved (outsOf blocks) block deps →
      ∃ a, arrays p [⟨block.header.hash, processedRecords p scripts true block deps⟩] = .ok a) :
    ∃ t, Reached p scripts blocks t ∧ t.Idle (s.pipeline.insertTransactions block) ∧ t.pipeline.incoming = rest := by
  obtain ⟨deps, resolved, reached⟩ := (reached.fetched idle incoming inMemory).analyzed lawful works
  obtain ⟨a, made⟩ := made deps resolved
  have inBlocks : block ∈ blocks := by
    rw [(sound_of_run lawful works reached.choose_spec).split]
    simp [working]
  have analyzes := analyzesBlock_of_processed (works block inBlocks) resolved
  obtain ⟨stores, stored⟩ := analyzes.exists_stored keyed (lawful.distinct block inBlocks) once made s.stores
  have swapped := reached.step .swap trivial ⟨_, by rw [Pipeline.next, if_pos ⟨by rw [working, idle.flush]; rfl, rfl⟩], rfl⟩
  have current : s.pipeline.generation s.pipeline.currentArena =
      if s.pipeline.currentArena = !s.pipeline.currentArena then s.pipeline.generation s.pipeline.currentArena + 1
        else s.pipeline.generation s.pipeline.currentArena := by
    rw [if_neg (by cases s.pipeline.currentArena <;> decide)]
  have written := swapped.step .write trivial ⟨_, rfl, rfl, (if_pos current).mpr ⟨stores, stored, rfl⟩⟩
  have flushed := written.step .flushed trivial ⟨_, rfl, rfl⟩
  exact ⟨_, flushed, ⟨rfl, rfl, rfl, rfl, rfl, rfl⟩, by rw [working, incoming]; rfl⟩

end CatchUp

section Sample

open Ledger

def caughtBlocks : List Block := [genesisBlock, childBlock 2, spenderBlock]

theorem coinbase_deps {name : UInt8} {rest : List Tx} {deps : List (List TxOut)} {outs : Hash → List TxOut}
    (resolved : List.Forall₂ (fun tx txDeps => List.Forall₂ (Refers outs) (dependents tx.txins) txDeps)
      (coinbaseOf name :: rest) deps) : ∃ others, deps = [] :: others ∧
        List.Forall₂ (fun tx txDeps => List.Forall₂ (Refers outs) (dependents tx.txins) txDeps) rest others := by
  cases resolved with
  | @cons _ first _ others ofCoinbase ofRest =>
    obtain rfl := List.forall₂_nil_left_iff.mp (show List.Forall₂ (Refers outs) [] first from ofCoinbase)
    exact ⟨others, rfl, ofRest⟩

theorem spender_deps {deps : List (List TxOut)} (resolved : Resolved (outsOf caughtBlocks) spenderBlock deps) :
    deps = [[], [⟨50, [81]⟩]] := by
  obtain ⟨others, rfl, rest⟩ := coinbase_deps resolved
  cases rest with
  | @cons _ second _ others ofSpending ofRest =>
    obtain rfl := List.forall₂_nil_left_iff.mp ofRest
    cases (show List.Forall₂ (Refers (outsOf caughtBlocks)) [⟨sampleHash 5, 0, 0, []⟩] second from ofSpending) with
    | @cons _ dep _ others refers none =>
      obtain rfl := List.forall₂_nil_left_iff.mp none
      have paid : (outsOf caughtBlocks (sampleHash 5))[0]? = some ⟨50, [81]⟩ := by decide
      cases paid.symm.trans refers
      rfl

theorem caughtBlocks_lawful : LawfulBlocks (fun _ => False) caughtBlocks where
  hashes := by decide
  count := by decide
  readable := by
    refine List.forall_mem_cons.mpr ⟨?_, List.forall_mem_cons.mpr ⟨?_, ?_⟩⟩
    · exact List.forall_mem_singleton.mpr (coinbaseOf_readable 4)
    · exact List.forall_mem_singleton.mpr (coinbaseOf_readable 5)
    · exact List.forall_mem_singleton.mpr (List.forall_mem_cons.mpr ⟨coinbaseOf_readable 6,
        List.forall_mem_singleton.mpr ⟨rfl, nofun, by decide⟩⟩)
  nonzero := by decide
  distinct := by decide
  names := by decide
  apart := by
    have apart : caughtBlocks.Pairwise Block.Apart :=
      .cons (List.forall_mem_cons.mpr ⟨⟨by decide, by decide, by decide⟩, List.forall_mem_singleton.mpr
        ⟨by decide, by decide, by decide⟩⟩) (List.pairwise_pair.mpr ⟨by decide, by decide, by decide⟩)
    exact apart.imp fun apart _ => apart
  funded front block back split before tx after txs other txin spent := by
    have place : front = [genesisBlock, childBlock 2] ∧ block = spenderBlock ∧ tx = Ledger.spendingTx := by
      have inBlocks : block ∈ caughtBlocks := split ▸ List.mem_append_right _ List.mem_cons_self
      have inBlock : tx ∈ block.txs := txs ▸ List.mem_append_right _ List.mem_cons_self
      simp only [caughtBlocks, List.mem_cons, List.not_mem_nil, or_false] at inBlocks
      have coinbase : ∀ {name}, tx ≠ coinbaseOf name := fun same => by rw [same] at other; cases other
      rcases inBlocks with rfl | rfl | rfl
      · exact absurd (List.mem_singleton.mp inBlock) coinbase
      · exact absurd (List.mem_singleton.mp inBlock) coinbase
      · refine ⟨?_, rfl, List.mem_singleton.mp ((List.mem_cons.mp inBlock).resolve_left coinbase)⟩
        have behind : ∀ one ∈ [genesisBlock, childBlock 2], one.header.hash ≠ spenderBlock.header.hash := by decide
        have fresh : spenderBlock ∉ [genesisBlock, childBlock 2] := fun member => behind _ member rfl
        exact ((List.append_cons_inj_of_notMem fresh List.not_mem_nil).mp
          (show [genesisBlock, childBlock 2] ++ spenderBlock :: [] = front ++ spenderBlock :: back from split)).1.symm
    obtain ⟨rfl, rfl, rfl⟩ := place
    rw [List.mem_singleton.mp (show txin ∈ [(⟨sampleHash 5, 0, 0, []⟩ : TxIn)] from spent)]
    exact ⟨coinbaseOf 5, Or.inr ⟨childBlock 2, by simp, id, List.mem_singleton_self _⟩, rfl, by decide⟩

theorem caughtBlocks_work (timestamp : UInt64) : ∀ block ∈ caughtBlocks, ∀ deps, Resolved (outsOf caughtBlocks) block deps →
    (∀ pair ∈ block.txs.zip deps, ScriptsReturn checkedScripts timestamp pair) ∧ AmountsFit (block.txs.zip deps) ∧
      ∀ pair ∈ block.txs.zip deps, DeltasFit checkedScripts timestamp pair := by
  have single : ∀ {name : UInt8} {deps : List (List TxOut)},
      List.Forall₂ (fun tx txDeps => List.Forall₂ (Refers (outsOf caughtBlocks)) (dependents tx.txins) txDeps)
        [coinbaseOf name] deps →
      (∀ pair ∈ [coinbaseOf name].zip deps, ScriptsReturn checkedScripts timestamp pair) ∧ AmountsFit ([coinbaseOf name].zip deps) ∧
        ∀ pair ∈ [coinbaseOf name].zip deps, DeltasFit checkedScripts timestamp pair := by
    intro name deps resolved
    obtain ⟨others, rfl, rest⟩ := coinbase_deps resolved
    obtain rfl := List.forall₂_nil_left_iff.mp rest
    exact ⟨List.forall_mem_singleton.mpr (coinbaseOf_returns name _), ⟨List.forall_mem_singleton.mpr nofun, by
      change 0 < 2 ^ 64; decide, by change 50 < 2 ^ 64; decide⟩, List.forall_mem_singleton.mpr ⟨[], rfl⟩⟩
  refine List.forall_mem_cons.mpr ⟨fun deps => single, List.forall_mem_cons.mpr ⟨fun deps => single,
    List.forall_mem_singleton.mpr fun deps resolved => ?_⟩⟩
  obtain rfl := spender_deps resolved
  refine ⟨List.forall_mem_cons.mpr ⟨coinbaseOf_returns 6 _, List.forall_mem_singleton.mpr (spendingTx_returns _)⟩,
    ⟨List.forall_mem_cons.mpr ⟨nofun, List.forall_mem_singleton.mpr (by decide)⟩, by decide, by decide⟩,
    List.forall_mem_cons.mpr ⟨⟨[], rfl⟩, List.forall_mem_singleton.mpr ⟨[], rfl⟩⟩⟩

theorem caughtBlocks_inputs : ∀ block ∈ caughtBlocks, ∃ first ∈ block.txs.head?, first.txins ≠ [] :=
  List.forall_mem_cons.mpr ⟨⟨_, rfl, List.cons_ne_nil _ _⟩, List.forall_mem_cons.mpr ⟨⟨_, rfl, List.cons_ne_nil _ _⟩,
    List.forall_mem_singleton.mpr ⟨_, rfl, List.cons_ne_nil _ _⟩⟩⟩

theorem caughtBlocks_works : ∀ block ∈ caughtBlocks, Works .dev checkedScripts caughtBlocks block := by
  refine fun block member => ⟨caughtBlocks_inputs block member, fun deps resolved => ?_⟩
  obtain ⟨returns, fits, _⟩ := caughtBlocks_work block.header.timestamp.toUInt64 block member deps resolved
  exact ⟨returns, fun _ => fits⟩

theorem caughtBlocks_made : ∀ block ∈ caughtBlocks, ∀ deps, Resolved (outsOf caughtBlocks) block deps →
    ∃ a, arrays .dev [⟨block.header.hash, processedRecords .dev checkedScripts true block deps⟩] = .ok a := by
  intro block member deps resolved
  obtain ⟨returns, fits, deltas⟩ := caughtBlocks_work block.header.timestamp.toUInt64 block member deps resolved
  obtain ⟨records, totals, analyzed, made⟩ := (@analyzed_iff .dev checkedScripts block.header _ block.header.hash).mpr
    ⟨returns, fun _ => fits, fun _ => deltas⟩
  rw [processedRecords_eq (caughtBlocks_inputs block member) analyzed]
  exact made

theorem caughtBlocks_caught : ∃ s : CatchUp, s.Finished ∧ CatchUp.Reached .dev checkedScripts caughtBlocks s := by
  have begin : CatchUp.Reached .dev checkedScripts caughtBlocks (.start caughtBlocks) := ⟨[], .nil⟩
  obtain ⟨s, reached, idle, incoming⟩ := begin.batch_of_one caughtBlocks_lawful caughtBlocks_works checkedScripts_keyed
    ⟨rfl, rfl, rfl, rfl, rfl, rfl⟩ rfl (by decide) nofun (caughtBlocks_made _ (by simp [caughtBlocks]))
  obtain ⟨s', reached, idle', incoming⟩ := reached.batch_of_one caughtBlocks_lawful caughtBlocks_works checkedScripts_keyed
    idle incoming (by decide) nofun (caughtBlocks_made _ (by simp [caughtBlocks]))
  have inMemory : ∀ txin ∈ dependents (spenderBlock.txs.flatMap (·.txins)),
      (s'.pipeline.insertTransactions spenderBlock txin.prevoutHash).isSome ∨
        (s.pipeline.insertTransactions (childBlock 2) txin.prevoutHash).isSome := by
    intro txin depends
    rw [List.mem_singleton.mp (show txin ∈ [(⟨sampleHash 5, 0, 0, []⟩ : TxIn)] from depends)]
    exact Or.inr (foldl_mapInsert_isSome (List.mem_singleton_self (coinbaseOf 5)))
  obtain ⟨s'', reached, idle'', incoming⟩ := reached.batch_of_one caughtBlocks_lawful caughtBlocks_works checkedScripts_keyed
    idle' incoming (by decide) inMemory (caughtBlocks_made _ (by simp [caughtBlocks]))
  exact ⟨s'', ⟨incoming, idle''.batch, idle''.flush⟩, reached⟩

theorem caughtBlocks_main : MainBlocks spenderWaits.chainman caughtBlocks := by
  have top : spenderWaits.chainman.chain.topHeader.header.hash = spenderBlock.header.hash := by decide
  have upper : spenderWaits.chainman.chain.parentOf spenderBlock.header.hash = some (childBlock 2).header.hash := by decide
  have lower : spenderWaits.chainman.chain.parentOf (childBlock 2).header.hash = some genesisHeader.hash := by decide
  have root : spenderWaits.chainman.chain.parentOf genesisHeader.hash = none := by decide
  have names : caughtBlocks.map (·.header.hash) =
      [genesisHeader.hash, (childBlock 2).header.hash, spenderBlock.header.hash] := rfl
  constructor
  · rw [names]
    refine .cons (List.forall_mem_cons.mpr ⟨⟨.of_parent lower, by decide⟩, List.forall_mem_singleton.mpr
      ⟨(Descends.of_parent upper).trans (.of_parent lower), by decide⟩⟩) (List.pairwise_pair.mpr ⟨.of_parent upper, by decide⟩)
  · intro hash
    rw [Chain.OnMain, top, names, descends_iff_eq_or]
    simp only [List.mem_cons, List.not_mem_nil, or_false, upper, Option.some.injEq, exists_eq_left']
    rw [descends_iff_eq_or]
    simp only [lower, Option.some.injEq, exists_eq_left']
    rw [descends_iff_eq_or]
    simp only [root, reduceCtorEq, false_and, exists_false, or_false]
    constructor
    · rintro (low | middle | high) <;> simp [*]
    · rintro (high | middle | low) <;> simp [*]

theorem serves_from_empty_spender : ∃ t : Ledger, t.written = caughtBlocks ∧
    ∃ known, getBlock t.chainman.chain t.stores spenderBlock.header.hash true =
      .ok ⟨known, spenderBlock.txs.map Tx.withoutTxouts⟩ := by
  obtain ⟨s, finished, events, caught⟩ := caughtBlocks_caught
  obtain ⟨start, ready, stores, before, reached⟩ := spender_waits
  have sound := ready.run reached
  have all := (CatchUp.sound_of_run caughtBlocks_lawful caughtBlocks_works caught).flushed_all finished
  obtain ⟨_, serves⟩ := @serves_from_empty _ _ _ _ (fun _ => emptyHash) _ _ _ _ _ caughtBlocks_lawful caughtBlocks_works caught finished
    sound.topped sound.tracks caughtBlocks_main .nil
  have onMain := (caughtBlocks_main.complete spenderBlock.header.hash).mp (by decide)
  obtain ⟨block, member, hash, ⟨known, _, served⟩, _⟩ := serves _ onMain List.not_mem_nil id
  have same : block = spenderBlock := List.inj_on_of_nodup_map caughtBlocks_lawful.hashes (all ▸ member) (by decide) hash
  exact ⟨_, all, known.header, same ▸ served⟩

end Sample

end Bitlens

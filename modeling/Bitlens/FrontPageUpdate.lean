import Bitlens.BlockServing
import Bitlens.DailyStats
import Bitlens.FrontPage
import Bitlens.MinerCounters

namespace Bitlens
open Lib

variable {Regex F : Type}

/-- A block of the main chain with its analysed transactions. -/
abbrev PageBlock := BlockHeaderWithNumber × List SerializedTx

/-! What is compared of the entries. -/

def ShortBlock.key (block : ShortBlock F) : Nat × Hash × Nat × UInt64 :=
  (block.number, block.hash, block.txCount, block.rewardSats)

def ShortTx.key (tx : ShortTx) : String × UInt64 × UInt64 × Hash :=
  (tx.hash, tx.value, tx.feeSats, tx.blockHash)

def blockKey (b : PageBlock) : Nat × Hash × Nat × UInt64 :=
  (b.1.number, b.1.header.hash, b.2.length, (b.2.head?.map (·.txoutsSum)).getD 0)

def txKeys (b : PageBlock) : List (String × UInt64 × UInt64 × Hash) :=
  b.2.map fun tx => (hexEncode tx.hash.1.reverse, tx.txoutsSum, tx.fee, b.1.header.hash)

/-- The lists of the front page for these blocks, newest first. -/
structure Lists (blocks : List PageBlock) (latestBlocks : List (ShortBlock F)) (latestTxs : List ShortTx) : Prop where
  ofBlocks : latestBlocks.map ShortBlock.key = (blocks.map blockKey).take 50
  ofTxs : latestTxs.map ShortTx.key = (blocks.flatMap txKeys).take 50

/-- The first entries of a list that is known up to as many. -/
theorem take_append_take {α : Type} (xs ys : List α) (n : Nat) :
    (xs ++ ys).take n = xs.take n ++ ys.take (n - (xs.take n).length) := by
  rw [List.take_append, List.length_take]
  congr 2
  omega

/-- Filling up a list from another one. -/
theorem take_min_length {α : Type} (xs ys : List α) (n : Nat) :
    (if n ≠ 0 then xs ++ ys.take (min n ys.length) else xs) = xs ++ ys.take n := by
  by_cases none : n = 0
  · simp [none]
  · rw [if_pos none, ← List.take_take, List.take_length]

theorem syncStatus_ok {p : Profile} {f : PageFloats F} {topNumber topSyncedBlockNumber : Nat}
    (below : topSyncedBlockNumber ≤ topNumber) (counted : topNumber + 1 < 2 ^ 64) (speed : Option F) :
    ∃ syncStats, syncStatus p f topNumber topSyncedBlockNumber speed = .ok syncStats := by
  rw [syncStatus, Profile.sub_of_le below, Outcome.ok_bind]
  cases speed with
  | none => exact ⟨none, rfl⟩
  | some speed =>
    dsimp only
    split
    · rw [Profile.add_of_lt counted, Outcome.ok_bind, Profile.add_of_lt (by omega)]
      exact ⟨_, rfl⟩
    · exact ⟨none, rfl⟩

namespace Lists

variable {b : PageBlock} {done rest : List PageBlock} {latestBlocks latestBlocks' : List (ShortBlock F)}
  {latestTxs latestTxs' : List ShortTx}

theorem length_blocks (lists : Lists done latestBlocks latestTxs) : latestBlocks.length = min 50 done.length := by
  simpa using congrArg List.length lists.ofBlocks

theorem length_txs (lists : Lists done latestBlocks latestTxs) :
    latestTxs.length = min 50 (done.flatMap txKeys).length := by
  simpa only [List.length_map, List.length_take] using congrArg List.length lists.ofTxs

theorem length_blocks_le (lists : Lists done latestBlocks latestTxs) : latestBlocks.length ≤ 50 :=
  lists.length_blocks ▸ Nat.min_le_left _ _

theorem length_txs_le (lists : Lists done latestBlocks latestTxs) : latestTxs.length ≤ 50 :=
  lists.length_txs ▸ Nat.min_le_left _ _

theorem empty : Lists [] ([] : List (ShortBlock F)) [] := ⟨rfl, rfl⟩

/-- With both lists full further blocks add nothing. -/
theorem full (lists : Lists done latestBlocks latestTxs) (blocks : latestBlocks.length = 50)
    (txs : latestTxs.length = 50) (rest : List PageBlock) : Lists (done ++ rest) latestBlocks latestTxs := by
  have manyBlocks := lists.length_blocks
  have manyTxs := lists.length_txs
  constructor
  · rw [lists.ofBlocks, List.map_append, List.take_append_of_le_length (by rw [List.length_map]; omega)]
  · rw [lists.ofTxs, List.flatMap_append, List.take_append_of_le_length (by omega)]

/-- A full list of blocks comes with a full list of transactions, as no block is empty. -/
theorem full_of_blocks (lists : Lists done latestBlocks latestTxs) (nonempty : ∀ b ∈ done, b.2 ≠ [])
    (blocks : latestBlocks.length = 50) : latestTxs.length = 50 := by
  have manyBlocks := lists.length_blocks
  have manyTxs := lists.length_txs
  have enough : done.length ≤ (done.flatMap txKeys).length := by
    have each : ∀ count ∈ done.map fun b => (txKeys b).length, 1 ≤ count := by
      intro count member
      obtain ⟨b, inDone, rfl⟩ := List.mem_map.mp member
      rw [txKeys, List.length_map]
      exact List.length_pos_iff.mpr (nonempty b inDone)
    simpa [List.length_flatMap] using List.length_le_sum_of_one_le _ each
  omega

/-- While a list has room it is that of the blocks. -/
theorem room (lists : Lists done latestBlocks latestTxs) (nonempty : ∀ b ∈ done, b.2 ≠ [])
    (going : ¬(latestBlocks.length = 50 ∧ latestTxs.length = 50)) : latestBlocks.length < 50 := by
  have few := lists.length_blocks_le
  have notFull : latestBlocks.length ≠ 50 := fun blocks => going ⟨blocks, lists.full_of_blocks nonempty blocks⟩
  omega

/-- The entries of one more block. -/
theorem push (lists : Lists done latestBlocks latestTxs) (room : latestBlocks.length < 50) {first : SerializedTx}
    (head : b.2.head? = some first) (miner : MinerId × String × F) :
    Lists (done ++ [b]) (latestBlocks ++ [shortBlock b.1 b.2.length first.txoutsSum miner])
      (latestTxs ++ (b.2.take (min (50 - latestTxs.length) b.2.length)).map fun tx =>
        shortTx b.1 tx.hash tx.txoutsSum tx.fee tx.sizeWus) := by
  have few := lists.length_blocks
  constructor
  · rw [List.map_append, lists.ofBlocks, List.map_append, List.take_of_length_le, List.take_of_length_le]
    · simp [shortBlock, ShortBlock.key, blockKey, head]
    · simp
      omega
    · rw [List.length_map]
      omega
  · have count : ((done.flatMap txKeys).take 50).length = latestTxs.length := by
      rw [← lists.ofTxs, List.length_map]
    have same : b.2.take (min (50 - latestTxs.length) b.2.length) = b.2.take (50 - latestTxs.length) := by
      rw [Nat.min_comm, ← List.take_take]
      simp
    rw [List.map_append, lists.ofTxs, List.flatMap_append, take_append_take, count, List.flatMap_singleton, txKeys,
      ← List.map_take, List.map_map, same]
    rfl

/-- The lists of new blocks are filled up from those of the blocks before them. -/
theorem splice (lists : Lists done latestBlocks latestTxs) (before : Lists rest latestBlocks' latestTxs') :
    Lists (done ++ rest) (latestBlocks ++ latestBlocks'.take (50 - latestBlocks.length))
      (latestTxs ++ latestTxs'.take (50 - latestTxs.length)) := by
  have countBlocks : ((done.map blockKey).take 50).length = latestBlocks.length := by
    rw [← lists.ofBlocks, List.length_map]
  have countTxs : ((done.flatMap txKeys).take 50).length = latestTxs.length := by
    rw [← lists.ofTxs, List.length_map]
  constructor
  · rw [List.map_append, lists.ofBlocks, List.map_take, before.ofBlocks, List.map_append, take_append_take, countBlocks,
      List.take_take]
    congr 2
    omega
  · rw [List.map_append, lists.ofTxs, List.map_take, before.ofTxs, List.flatMap_append, take_append_take, countTxs,
      List.take_take]
    congr 2
    omega

end Lists

section Loops

variable [Zero F]

/-- A block that is written to the stores, with its metrics in sqlite and a miner. -/
structure Served (f : PageFloats F) (s : Backing Regex F) (metrics : Hash → BlockMetrics F) (b : PageBlock) : Prop where
  entries : getBlockTxEntries s.stores.blockTxs b.1.header.hash = .ok (b.2.map SerializedTx.entry)
  txs : ∀ tx ∈ b.2, ∃ v, getAnalyzedTx s.stores.txs tx.hash = .ok v ∧
    v.txoutsSum = tx.txoutsSum ∧ v.fee = tx.fee ∧ v.sizeWus = tx.sizeWus
  nonempty : b.2 ≠ []
  mined : ∃ miner, s.miners.getMinerForBlockAndShare f.share b.1.header.hash = .ok (some miner)
  measured : s.findBlockMetrics b.1.header.hash = some (metrics b.1.header.hash)

/-- A main chain up to `top`, newest first, of served blocks. -/
structure ServedChain (f : PageFloats F) (s : Backing Regex F) (metrics : Hash → BlockMetrics F) (top : Hash)
    (blocks : List PageBlock) : Prop where
  ancestry : s.chain.Ancestry top (blocks.map (·.1))
  served : ∀ b ∈ blocks, Served f s metrics b

variable {p : Profile} {f : PageFloats F} {s : Backing Regex F} {metrics : Hash → BlockMetrics F} {top hash : Hash}
  {b : PageBlock} {done rest older : List PageBlock} {latestBlocks : List (ShortBlock F)} {latestTxs : List ShortTx}

/-- What both loops push for a block. -/
def pushBlock (b : PageBlock) (first : SerializedTx) (miner : MinerId × String × F) (latestBlocks : List (ShortBlock F))
    (latestTxs : List ShortTx) : List (ShortBlock F) × List ShortTx :=
  (latestBlocks ++ [shortBlock b.1 b.2.length first.txoutsSum miner],
    latestTxs ++ (b.2.take (min (50 - latestTxs.length) b.2.length)).map fun tx =>
      shortTx b.1 tx.hash tx.txoutsSum tx.fee tx.sizeWus)

/-- A round of the loop of `generate_frontpage_data`. -/
theorem generateLoop_step (served : Served f s metrics b) (fuel : Nat) (few : latestTxs.length ≤ 50)
    (room : ¬(latestBlocks.length = 50 ∧ latestTxs.length = 50)) :
    ∃ first miner, b.2.head? = some first ∧ generateLoop p f s (fuel + 1) b.1 latestBlocks latestTxs =
      if b.1.header.parent = emptyHash then .ok (pushBlock b first miner latestBlocks latestTxs)
      else (do
        let currentHeader ← Outcome.unwrap (s.chain.knownHeaders b.1.header.parent)
        generateLoop p f s fuel currentHeader (pushBlock b first miner latestBlocks latestTxs).1
          (pushBlock b first miner latestBlocks latestTxs).2) := by
  obtain ⟨miner, mined⟩ := served.mined
  obtain ⟨first, others, txs⟩ := List.exists_cons_of_ne_nil served.nonempty
  have head : (b.2.map SerializedTx.entry).head? = some first.entry := by rw [txs]; rfl
  have read : Outcome.mapM (fun txEntry => do
      let tx ← expect (getAnalyzedTx s.stores.txs txEntry.hash)
      pure (shortTx b.1 txEntry.hash tx.txoutsSum tx.fee tx.sizeWus))
        ((b.2.take (min (50 - latestTxs.length) b.2.length)).map SerializedTx.entry) =
      .ok ((b.2.take (min (50 - latestTxs.length) b.2.length)).map fun tx =>
        shortTx b.1 tx.hash tx.txoutsSum tx.fee tx.sizeWus) := by
    refine Outcome.mapM_eq_ok fun tx member => ?_
    obtain ⟨v, found, sum, fee, size⟩ := served.txs tx (List.mem_of_mem_take member)
    rw [SerializedTx.entry, found, expect_ok, Outcome.ok_bind, sum, fee, size]
    rfl
  refine ⟨first, miner, by rw [txs]; rfl, ?_⟩
  rw [generateLoop, frontpageBlocksCount, frontpageTxsCount, if_neg room, served.entries, expect_ok, Outcome.ok_bind,
    mined, Outcome.ok_bind, Outcome.unwrap_some, Outcome.ok_bind, head, Outcome.unwrap_some, Outcome.ok_bind]
  dsimp only
  rw [Profile.sub_of_le few, Outcome.ok_bind, List.length_map, ← List.map_take, read, Outcome.ok_bind]
  rfl

/-- A round of the loop of `update_frontpage_data`. -/
theorem updateLoop_step (served : Served f s metrics b) (others : List (List SerializedTx))
    (few : latestTxs.length ≤ 50) (room : ¬(latestBlocks.length = 50 ∧ latestTxs.length = 50)) :
    ∃ first miner, b.2.head? = some first ∧ updateLoop p f s (b.2 :: others) b.1 latestBlocks latestTxs =
      if others.isEmpty then .ok (pushBlock b first miner latestBlocks latestTxs)
      else (do
        let currentHeader ← Outcome.unwrap (s.chain.knownHeaders b.1.header.parent)
        updateLoop p f s others currentHeader (pushBlock b first miner latestBlocks latestTxs).1
          (pushBlock b first miner latestBlocks latestTxs).2) := by
  obtain ⟨miner, mined⟩ := served.mined
  obtain ⟨first, rest, txs⟩ := List.exists_cons_of_ne_nil served.nonempty
  have head : b.2.head? = some first := by rw [txs]; rfl
  refine ⟨first, miner, head, ?_⟩
  rw [updateLoop, frontpageBlocksCount, frontpageTxsCount, if_neg room, mined, Outcome.ok_bind, Outcome.unwrap_some,
    Outcome.ok_bind, head, Outcome.unwrap_some, Outcome.ok_bind]
  dsimp only
  rw [Profile.sub_of_le few, Outcome.ok_bind]
  rfl

/-- The loop of `generate_frontpage_data` collects the lists of the branch. -/
theorem generateLoop_ok (ancestry : s.chain.Ancestry hash ((b :: rest).map (·.1)))
    (served : ∀ x ∈ b :: rest, Served f s metrics x) (lists : Lists done latestBlocks latestTxs)
    (nonempty : ∀ x ∈ done, x.2 ≠ []) {fuel : Nat} (enough : rest.length < fuel) :
    ∃ lists', generateLoop p f s fuel b.1 latestBlocks latestTxs = .ok lists' ∧
      Lists (done ++ b :: rest) lists'.1 lists'.2 := by
  induction rest generalizing hash b done latestBlocks latestTxs fuel with
  | nil =>
    obtain ⟨fuel, rfl⟩ := Nat.exists_eq_succ_of_ne_zero (Nat.ne_of_gt enough)
    by_cases stop : latestBlocks.length = 50 ∧ latestTxs.length = 50
    · exact ⟨(latestBlocks, latestTxs), by rw [generateLoop]; exact if_pos stop, lists.full stop.1 stop.2 _⟩
    · obtain ⟨first, miner, head, step⟩ :=
        generateLoop_step (p := p) (served b List.mem_cons_self) fuel lists.length_txs_le stop
      refine ⟨pushBlock b first miner latestBlocks latestTxs, ?_, lists.push (lists.room nonempty stop) head miner⟩
      cases ancestry with
      | root _ _ bottom =>
        rw [step, if_pos bottom]
      | child _ _ _ _ above => cases above
  | cons next rest ih =>
    obtain ⟨fuel, rfl⟩ := Nat.exists_eq_succ_of_ne_zero (Nat.ne_of_gt (Nat.zero_lt_of_lt enough))
    by_cases stop : latestBlocks.length = 50 ∧ latestTxs.length = 50
    · exact ⟨(latestBlocks, latestTxs), by rw [generateLoop]; exact if_pos stop, lists.full stop.1 stop.2 _⟩
    · obtain ⟨first, miner, head, step⟩ :=
        generateLoop_step (p := p) (served b List.mem_cons_self) fuel lists.length_txs_le stop
      cases ancestry with
      | child _ _ above _ parents =>
        have present : ∀ x ∈ done ++ [b], x.2 ≠ [] := by
          intro x member
          rcases List.mem_append.mp member with before | here
          · exact nonempty x before
          · exact List.mem_singleton.mp here ▸ (served b List.mem_cons_self).nonempty
        obtain ⟨lists', result, whole⟩ := ih parents (fun x member => served x (List.mem_cons_of_mem _ member))
          (lists.push (lists.room nonempty stop) head miner) present (Nat.lt_of_succ_lt_succ enough)
        rw [List.append_assoc] at whole
        exact ⟨lists', by rw [step, if_neg above, parents.stored]; exact result, whole⟩

/-- The loop of `update_frontpage_data` collects the lists of the batch. -/
theorem updateLoop_ok (rest : List PageBlock) (ancestry : s.chain.Ancestry hash ((b :: rest ++ older).map (·.1)))
    (served : ∀ x ∈ b :: rest, Served f s metrics x) (lists : Lists done latestBlocks latestTxs)
    (nonempty : ∀ x ∈ done, x.2 ≠ []) :
    ∃ lists', updateLoop p f s ((b :: rest).map (·.2)) b.1 latestBlocks latestTxs = .ok lists' ∧
      Lists (done ++ b :: rest) lists'.1 lists'.2 := by
  induction rest generalizing hash b done latestBlocks latestTxs with
  | nil =>
    by_cases stop : latestBlocks.length = 50 ∧ latestTxs.length = 50
    · exact ⟨(latestBlocks, latestTxs), by rw [List.map_cons, updateLoop]; exact if_pos stop,
        lists.full stop.1 stop.2 _⟩
    · obtain ⟨first, miner, head, step⟩ :=
        updateLoop_step (p := p) (served b List.mem_cons_self) [] lists.length_txs_le stop
      exact ⟨pushBlock b first miner latestBlocks latestTxs, step, lists.push (lists.room nonempty stop) head miner⟩
  | cons next rest ih =>
    by_cases stop : latestBlocks.length = 50 ∧ latestTxs.length = 50
    · exact ⟨(latestBlocks, latestTxs), by rw [List.map_cons, updateLoop]; exact if_pos stop,
        lists.full stop.1 stop.2 _⟩
    · obtain ⟨first, miner, head, step⟩ := updateLoop_step (p := p) (served b List.mem_cons_self)
        ((next :: rest).map (·.2)) lists.length_txs_le stop
      cases ancestry with
      | child _ _ _ _ parents =>
        have present : ∀ x ∈ done ++ [b], x.2 ≠ [] := by
          intro x member
          rcases List.mem_append.mp member with before | here
          · exact nonempty x before
          · exact List.mem_singleton.mp here ▸ (served b List.mem_cons_self).nonempty
        obtain ⟨lists', result, whole⟩ := ih parents (fun x member => served x (List.mem_cons_of_mem _ member))
          (lists.push (lists.room nonempty stop) head miner) present
        rw [List.append_assoc] at whole
        exact ⟨lists', by rw [List.map_cons, step, parents.stored]; exact result, whole⟩

/-- A block is served whose records were written, when the miners' statistics know it. -/
theorem served_of_written {scripts : Scripts} {header : BlockHeaderOwned}
    (found : s.stores.blockTxs b.1.header.hash = some (serializedTxhashes ⟨b.1.header.hash, b.2⟩))
    (small : b.2.length < 2 ^ 58) (nonempty : b.2 ≠ [])
    (records : ∀ record ∈ b.2, s.stores.txs record.hash = some record.analyzedTx ∧
      ∃ tx, tx.Readable ∧ AnalyzesTx p scripts header tx record)
    (consistent : s.miners.Consistent) (known : (s.miners.blockMiners b.1.header.hash).isSome)
    (measured : s.findBlockMetrics b.1.header.hash = some (metrics b.1.header.hash)) : Served f s metrics b where
  entries := @getBlockTxEntries_ok s.stores.blockTxs ⟨b.1.header.hash, b.2⟩ found small
  txs record member := by
    obtain ⟨stored, tx, readable, analyzes⟩ := records record member
    rw [analyzes.hash] at stored ⊢
    obtain ⟨v, read, _, numbers⟩ := analyzes.getAnalyzedTx readable stored
    exact ⟨v, read, numbers⟩
  nonempty := nonempty
  mined := by
    obtain ⟨minerId, miner⟩ := Option.isSome_iff_exists.mp known
    obtain ⟨answer, result⟩ : ∃ answer, s.miners.getMinerForBlockAndShare f.share b.1.header.hash = .ok answer :=
      consistent.getMinerForBlockAndShare b.1.header.hash
    cases answer with
    | some found => exact ⟨found, result⟩
    | none =>
      rw [Miners.getMinerForBlockAndShare, miner] at result
      obtain ⟨mined, _, result⟩ := Outcome.bind_eq_ok.mp result
      obtain ⟨name, _, result⟩ := Outcome.bind_eq_ok.mp result
      cases result
  measured := measured

theorem ServedChain.metrics_found {blocks : List PageBlock} (chain : ServedChain f s metrics top blocks) :
    ∀ x ∈ relevantBlocks p (blocks.map (·.1)), s.findBlockMetrics x.header.hash = some (metrics x.header.hash) := by
  intro x member
  obtain ⟨b, inBlocks, rfl⟩ := List.mem_map.mp ((relevantBlocks_isPrefix p _).subset member)
  exact (chain.served b inBlocks).measured

/-- What `generate_frontpage_data` puts on the front page. -/
theorem ServedChain.generateFrontpageData_ok (chain : ServedChain f s metrics top (b :: rest)) {stats : Stats F}
    (computed : calculateStats p f.toFloats s.chain s.findBlockMetrics top none = .ok stats) (w : FrontPageData F) :
    ∃ g, generateFrontpageData p f s top w = .ok g ∧ Lists (b :: rest) g.latestBlocks g.latestTxs := by
  obtain ⟨lists, result, whole⟩ := generateLoop_ok (p := p) chain.ancestry chain.served .empty (by simp)
    (Nat.lt_succ_self _)
  have ancestry := chain.ancestry
  rw [List.map_cons] at ancestry
  have number := ancestry.number
  rw [List.length_map] at number
  refine ⟨⟨stats, lists.1, lists.2, none⟩, ?_, whole⟩
  rw [generateFrontpageData, computed]
  dsimp only
  rw [ancestry.stored, Outcome.unwrap_some, Outcome.ok_bind, number, result]
  rfl

/-- The batch is put before what was on the front page. -/
theorem updateFrontpageData_ok {batch : List PageBlock} (chain : ServedChain f s metrics top (b :: rest))
    (split : batch.reverse ++ older = b :: rest) (some : batch ≠ [])
    (below : b.1.number ≤ s.chain.topHeader.number) (counted : s.chain.topHeader.number + 1 < 2 ^ 64)
    {cache : List (BlockMetrics F)} {stats : Stats F}
    (computed : calculateStats p f.toFloats s.chain s.findBlockMetrics top (Option.some cache) = .ok stats)
    (speed : Option F) {w : FrontPageData F} (before : Lists older w.latestBlocks w.latestTxs) :
    ∃ w', updateFrontpageData p f s top cache (batch.map (·.2)) speed w = .ok w' ∧
      Lists (b :: rest) w'.latestBlocks w'.latestTxs := by
  obtain ⟨newer, newest, rfl⟩ : ∃ newer, batch.reverse = b :: newer ∧ rest = newer ++ older := by
    cases reversed : batch.reverse with
    | nil => exact absurd (List.reverse_eq_nil_iff.mp reversed) some
    | cons b' newer =>
      rw [reversed, List.cons_append, List.cons.injEq] at split
      exact ⟨newer, by rw [split.1], split.2.symm⟩
  have ancestry := chain.ancestry
  obtain ⟨lists, result, whole⟩ := updateLoop_ok (p := p) newer ancestry
    (fun x member => chain.served x (by simpa using Or.imp_right Or.inl (List.mem_cons.mp member))) .empty (by simp)
  rw [List.map_cons] at ancestry
  obtain ⟨syncStats, synced⟩ := syncStatus_ok (p := p) (f := f) below counted speed
  have filled := whole.splice before
  refine ⟨⟨stats, lists.1 ++ w.latestBlocks.take (50 - lists.1.length),
    lists.2 ++ w.latestTxs.take (50 - lists.2.length), syncStats⟩, ?_, filled⟩
  rw [updateFrontpageData, computed]
  dsimp only
  rw [ancestry.stored, Outcome.unwrap_some, Outcome.ok_bind, ← List.map_reverse, newest, result, Outcome.ok_bind,
    synced, Outcome.ok_bind, frontpageBlocksCount, frontpageTxsCount, Profile.sub_of_le whole.length_blocks_le,
    Outcome.ok_bind, Profile.sub_of_le whole.length_txs_le, Outcome.ok_bind, take_min_length, take_min_length]
  rfl

/-- What was on the front page before a batch: nothing below the first block, else what was
generated for the parent. -/
def PageOf (Regex : Type) (older : List PageBlock) (w : FrontPageData F) : Prop :=
  (older = [] ∧ w.latestBlocks = [] ∧ w.latestTxs = []) ∨
    ∃ (p : Profile) (f : PageFloats F) (s : Backing Regex F) (metrics : Hash → BlockMetrics F) (parent : Hash)
      (w₀ w₁ : FrontPageData F), ServedChain f s metrics parent older ∧
        generateFrontpageData p f s parent w₀ = .ok w₁ ∧ w.latestBlocks = w₁.latestBlocks ∧ w.latestTxs = w₁.latestTxs

/-- The update returns and puts the same lists on the front page as generating them anew. -/
def UpdatesAsGenerated (p : Profile) (f : PageFloats F) (s : Backing Regex F) (top : Hash)
    (metricsCache : List (BlockMetrics F)) (analyzedCache : List (List SerializedTx)) (speed : Option F)
    (w : FrontPageData F) : Prop :=
  ∃ w' g, updateFrontpageData p f s top metricsCache analyzedCache speed w = .ok w' ∧
    generateFrontpageData p f s top w = .ok g ∧
    w'.latestBlocks.map ShortBlock.key = g.latestBlocks.map ShortBlock.key ∧
    w'.latestTxs.map ShortTx.key = g.latestTxs.map ShortTx.key ∧
    w'.latestBlocks.length ≤ 50 ∧ w'.latestTxs.length ≤ 50 ∧ g.latestBlocks.length ≤ 50 ∧ g.latestTxs.length ≤ 50

theorem PageOf.lists {w : FrontPageData F} (page : PageOf Regex older w) :
    Lists older w.latestBlocks w.latestTxs := by
  rcases page with ⟨rfl, blocks, txs⟩ | ⟨p, f, s, metrics, parent, w₀, w₁, chain, generated, blocks, txs⟩
  · rw [blocks, txs]
    exact .empty
  · rw [blocks, txs]
    cases older with
    | nil => cases chain.ancestry
    | cons b rest =>
      have ancestry := chain.ancestry
      rw [List.map_cons] at ancestry
      rcases ancestry.calculateStats_cases (p := p) (f := f.toFloats) chain.metrics_found [] with
        ⟨⟨stats, computed⟩, _⟩ | ⟨panics, _⟩
      · obtain ⟨g, result, lists⟩ := chain.generateFrontpageData_ok computed w₀
        cases generated.symm.trans result
        exact lists
      · rw [generateFrontpageData, show calculateStats p f.toFloats s.chain s.findBlockMetrics parent none = .fault from
          panics] at generated
        cases generated

/-- In every build the front page is updated as it is generated, if and only if a `dev` build gets
through the statistics: the newest block's timestamp is at least 15 days, and the totals of the days
fit, with the metrics of the batch as they are paired and with the blocks' own. -/
theorem updatesAsGenerated_iff {batch : List PageBlock} (chain : ServedChain f s metrics top (batch.reverse ++ older))
    (some : batch ≠ []) (tip : ∀ b ∈ batch, b.1.number ≤ s.chain.topHeader.number)
    (counted : s.chain.topHeader.number + 1 < 2 ^ 64) (speed : Option F) {w : FrontPageData F}
    (page : PageOf Regex older w) :
    let blocks := (batch.reverse ++ older).map (·.1)
    UpdatesAsGenerated p f s top (metricsOf metrics (batch.map (·.1))) (batch.map (·.2)) speed w ↔
      (p = .dev → 86400 * 15 ≤ ((blocks.head?.map (·.time)).getD 0) ∧
        DaysFit (pairedDays metrics (midnight blocks) (relevantBlocks p blocks)
          (owners (batch.map (·.1)) (relevantBlocks p blocks))) ∧
        DaysFit (closedDays metrics (midnight blocks) (relevantBlocks p blocks))) := by
  obtain ⟨b, rest, split⟩ : ∃ b rest, batch.reverse ++ older = b :: rest :=
    List.exists_cons_of_ne_nil (by simpa using fun empty => absurd empty some)
  have newest : b ∈ batch := by
    have head := congrArg List.head? split
    rw [List.head?_append_of_ne_nil _ (by simpa using some), List.head?_reverse] at head
    exact List.mem_of_getLast? head
  rw [split] at chain
  intro blocks
  have shape : blocks = b.1 :: rest.map (·.1) := congrArg (List.map (·.1)) split
  have ancestry := chain.ancestry
  have updated := ancestry.calculateStats_cases (p := p) (f := f.toFloats) chain.metrics_found (batch.map (·.1))
  have generated := ancestry.calculateStats_cases (p := p) (f := f.toFloats) chain.metrics_found []
  dsimp only at updated generated
  rw [owners_nil, pairedDays_self] at generated
  rw [shape]
  rcases updated with ⟨⟨stats, computed⟩, fits⟩ | ⟨panics, unfit⟩
  · rcases generated with ⟨⟨stats', computed'⟩, fits'⟩ | ⟨panics, unfit⟩
    · refine iff_of_true ?_ fun dev => ⟨(fits dev).1, (fits dev).2, (fits' dev).2⟩
      obtain ⟨w', update, lists⟩ :=
        updateFrontpageData_ok chain split some (tip b newest) counted computed speed page.lists
      obtain ⟨g, generate, lists'⟩ := chain.generateFrontpageData_ok computed' w
      exact ⟨w', g, update, generate, lists.ofBlocks.trans lists'.ofBlocks.symm, lists.ofTxs.trans lists'.ofTxs.symm,
        lists.length_blocks_le, lists.length_txs_le, lists'.length_blocks_le, lists'.length_txs_le⟩
    · refine iff_of_false ?_ fun returns => unfit fun dev => ⟨(returns dev).1, (returns dev).2.2⟩
      rintro ⟨w', g, _, generate, _⟩
      rw [generateFrontpageData, show calculateStats p f.toFloats s.chain s.findBlockMetrics top none = .fault from
        panics] at generate
      cases generate
  · refine iff_of_false ?_ fun returns => unfit fun dev => ⟨(returns dev).1, (returns dev).2.1⟩
    rintro ⟨w', g, update, _⟩
    rw [updateFrontpageData, panics] at update
    cases update

end Loops

def unpaidRecord : SerializedTx :=
  coinbaseRecord unpaidBlock.header.hash unpaidBlock.header.merkleRoot [] 0

def paidRecord : SerializedTx :=
  coinbaseRecord paidBlock.header.hash paidBlock.header.merkleRoot [⟨50, [81]⟩] 50

def firstPage : PageBlock := (datedBlock 0 emptyHash 1231006505, [unpaidRecord])

/-- A block at this time on top of the first one, which pays its miner. -/
def secondPage (timestamp : UInt32) : PageBlock := (datedBlock 1 (ByteArr.fill 32 1) timestamp, [paidRecord])

def pageBacking (timestamp : UInt32) : Backing Unit ℚ where
  chain := chainOfBlocks [(secondPage timestamp).1, firstPage.1]
  miners := ⟨[], [], fun _ => some [], [(unknownId, 0)], fun _ => some unknownId, [], []⟩
  stores := {
    Stores.empty with
    blockTxs := fun hash =>
      some (serializedTxhashes ⟨hash, if hash = ByteArr.fill 32 1 then firstPage.2 else (secondPage timestamp).2⟩)
    txs := fun hash => some (if hash = unpaidRecord.hash then unpaidRecord.analyzedTx else paidRecord.analyzedTx) }
  findBlockMetrics := fun _ => some ⟨0, 1, 0⟩

def pageRationals : PageFloats ℚ :=
  { rationals with share := fun a b => a / b, remaining := fun n speed => n / speed }

def emptyPage : FrontPageData ℚ := ⟨.default, [], [], none⟩

theorem pageBacking_consistent (timestamp : UInt32) : (pageBacking timestamp).miners.Consistent where
  matched := by simp [pageBacking]
  mined := fun _ _ => rfl
  counted := fun id => by
    by_cases unknown : id = unknownId
    · simp [pageBacking, Miners.HasId, Miners.countOf, lookupEntry_cons, unknown]
    · simp [pageBacking, Miners.HasId, lookupEntry_cons, unknown, Ne.symm unknown]
  recent := by simp [pageBacking]
  miners := fun _ _ same => Or.inl (Option.some.inj same).symm

theorem coinbaseTx_analyzed {block hash : Hash} {txouts : List TxOut} {txoutsSum : UInt64}
    (sum : sumU64 .dev (txouts.map (·.value)) = .ok txoutsSum.toNat) :
    AnalyzesTx .dev noScripts (coinbaseBlock block hash 0 txouts).header (coinbaseTx hash txouts)
      (coinbaseRecord block hash txouts txoutsSum) := by
  cases @coinbaseBlock_analyzed block hash 0 txouts txoutsSum sum with
  | cons block _ =>
    cases block.2 with
    | cons tx _ => exact tx

theorem firstPage_served (timestamp : UInt32) :
    Served pageRationals (pageBacking timestamp) (fun _ => ⟨0, 1, 0⟩) firstPage :=
  served_of_written rfl (by decide) (List.cons_ne_nil _ _)
    (List.forall_mem_singleton.mpr
      ⟨rfl, _, unpaidBlock_accepted.readable _ List.mem_cons_self, coinbaseTx_analyzed rfl⟩)
    (pageBacking_consistent timestamp) rfl rfl

theorem secondPage_served (timestamp : UInt32) :
    Served pageRationals (pageBacking timestamp) (fun _ => ⟨0, 1, 0⟩) (secondPage timestamp) :=
  served_of_written rfl (Nat.one_lt_two_pow (by decide)) (List.cons_ne_nil _ _)
    (List.forall_mem_singleton.mpr
      ⟨rfl, _, paidBlock_accepted.readable _ List.mem_cons_self, coinbaseTx_analyzed rfl⟩)
    (pageBacking_consistent timestamp) rfl rfl

theorem firstPage_chain (timestamp : UInt32) :
    ServedChain pageRationals (pageBacking timestamp) (fun _ => ⟨0, 1, 0⟩) (ByteArr.fill 32 1) [firstPage] where
  ancestry := .root rfl rfl rfl rfl
  served := List.forall_mem_singleton.mpr (firstPage_served timestamp)

theorem secondPage_chain (timestamp : UInt32) :
    ServedChain pageRationals (pageBacking timestamp) (fun _ => ⟨0, 1, 0⟩) (ByteArr.fill 32 2)
      [secondPage timestamp, firstPage] where
  ancestry := .child rfl rfl (show (ByteArr.fill 32 1 : Hash) ≠ emptyHash by decide) rfl (.root rfl rfl rfl rfl)
  served := List.forall_mem_cons.mpr
    ⟨secondPage_served timestamp, List.forall_mem_singleton.mpr (firstPage_served timestamp)⟩

/-- The page of the first block gets the second one, four days later. -/
theorem updatesAsGenerated_iff_second :
    let s := pageBacking 1231352105
    ∃ w, generateFrontpageData .dev pageRationals s (ByteArr.fill 32 1) emptyPage = .ok w ∧
      w.latestBlocks ≠ [] ∧
      UpdatesAsGenerated .dev pageRationals s (ByteArr.fill 32 2)
        (metricsOf (fun _ => ⟨0, 1, 0⟩) [(secondPage 1231352105).1]) [[paidRecord]] none w := by
  intro s
  have chain := firstPage_chain 1231352105
  obtain ⟨w, generated, lists⟩ : ∃ w, generateFrontpageData .dev pageRationals s (ByteArr.fill 32 1) emptyPage = .ok w ∧
      Lists [firstPage] w.latestBlocks w.latestTxs := by
    obtain ⟨stats, computed⟩ : ∃ stats, calculateStats .dev pageRationals.toFloats s.chain s.findBlockMetrics
      (ByteArr.fill 32 1) none = .ok stats := ⟨_, rfl⟩
    exact chain.generateFrontpageData_ok computed emptyPage
  refine ⟨w, generated, ?_, ?_⟩
  · exact List.ne_nil_of_length_pos (by rw [lists.length_blocks]; decide)
  · exact (@updatesAsGenerated_iff _ _ _ .dev pageRationals s _ _ [firstPage] [secondPage 1231352105]
      (secondPage_chain 1231352105) (List.cons_ne_nil _ _) (by decide) (by decide) none w
      (Or.inr ⟨_, _, _, _, _, _, w, chain, generated, rfl, rfl⟩)).mpr fun _ => by decide

/-- Below a timestamp of 1296000 the window of 15 days underflows. -/
theorem updatesAsGenerated_fails :
    ServedChain pageRationals (pageBacking 0) (fun _ => ⟨0, 1, 0⟩) (ByteArr.fill 32 2) [secondPage 0, firstPage] ∧
      PageOf Unit [] emptyPage ∧
      ¬ UpdatesAsGenerated .dev pageRationals (pageBacking 0) (ByteArr.fill 32 2)
        (metricsOf (fun _ => ⟨0, 1, 0⟩) ([firstPage, secondPage 0].map (·.1))) ([firstPage, secondPage 0].map (·.2))
        none emptyPage := by
  refine ⟨secondPage_chain 0, Or.inl ⟨rfl, rfl, rfl⟩, ?_⟩
  rintro ⟨w', g, update, _⟩
  rw [updateFrontpageData, (secondPage_chain 0).ancestry.calculateStats_of_fault rfl] at update
  cases update

end Bitlens

import Bitlens.MinerCounters

namespace Bitlens
open Lib

namespace Miners

variable {Regex F : Type}

/-- The downloaded main chain below `top`, newest first; empty where nothing is downloaded. -/
def Synced (c : Chain) (blocks : List BlockHeaderWithNumber) : Option Hash → Prop
  | none => blocks = []
  | some top => c.Ancestry top blocks

/-- A downloaded main chain, newest first, and a batch of blocks with their coinbase scripts that
extends it, oldest first, as `mark_as_downloaded` recorded them. -/
structure Extension (c₀ : Chain) (oldTop : Option Hash) (old : List BlockHeaderWithNumber) (c : Chain)
    (newTop : Hash) (batch : List (BlockHeaderWithNumber × Bytes)) : Prop where
  before : Synced c₀ old oldTop
  after : c.Ancestry newTop ((batch.map (·.1)).reverse ++ old)
  nonempty : batch ≠ []
  downloaded : ∀ b ∈ old, b.coinbaseAscii.isSome
  marked : ∀ entry ∈ batch, entry.1.coinbaseAscii = some (fromUtf8Lossy entry.2)
  dated : ∀ b ∈ (batch.map (·.1)).reverse ++ old, minerPercentageOverLastSeconds ≤ b.header.timestamp.toNat

/-- The start of the window of recent blocks below the newest block. -/
def recentAfter (blocks : List BlockHeaderWithNumber) : Nat :=
  (blocks.head?.map (·.header.timestamp.toNat)).getD 0 - minerPercentageOverLastSeconds

/-- The two sets of statistics are the same; counters are compared by what they hold. -/
structure Agrees (w w' : Miners Regex F) : Prop where
  mined : w.blocksMinedByMiners = w'.blocksMinedByMiners
  miners : w.blockMiners = w'.blockMiners
  recent : w.recentBlocks = w'.recentBlocks
  counts : ∀ id, lookupEntry w.recentBlocksMinedByMinersCounts id = lookupEntry w'.recentBlocksMinedByMinersCounts id

/-- Of the old blocks, oldest first, those in the second window were in the first one, and of those
in the first one none that leaves stands behind one that stays. -/
def WindowMoves (before after : Nat) (timestamps : List Nat) : Prop :=
  (∀ t ∈ timestamps, after ≤ t → before ≤ t) ∧
    (timestamps.filter (before ≤ ·)).Pairwise fun t u => u < after → t < after

instance (before after : Nat) (timestamps : List Nat) : Decidable (WindowMoves before after timestamps) :=
  inferInstanceAs (Decidable (_ ∧ _))

variable {w w₀ w₁ w₂ : Miners Regex F} {isMatch : Regex → Bytes → Bool} {p : Profile} {share : Nat → Nat → F}

/-- The rules find the same miner in a script as in its text, with the same name where the block
is recent. -/
def SameMiner (isMatch : Regex → Bytes → Bool) (w : Miners Regex F) (recent : Prop) (script : Bytes) : Prop :=
  let inScript := findMiner isMatch w.rulesRegexes script
  let inText := findMiner isMatch w.rulesRegexes (asBytes (fromUtf8Lossy script))
  inScript.getD unknownId = inText.getD unknownId ∧ (recent → nameFor w.rules inScript = nameFor w.rules inText)

theorem Consistent.agrees_iff (first : w.Consistent) (second : w₁.Consistent) (rules : w.rules = w₁.rules) :
    Agrees w w₁ ↔ w.blocksMinedByMiners = w₁.blocksMinedByMiners ∧ w.blockMiners = w₁.blockMiners ∧
      w.recentBlocks = w₁.recentBlocks := by
  constructor
  · exact fun agrees => ⟨agrees.mined, agrees.miners, agrees.recent⟩
  · rintro ⟨mined, miners, recent⟩
    exact ⟨mined, miners, recent, fun id => by rw [first.counted, second.counted, rules, recent]⟩

/-- Popping from the front leaves exactly the recent ones. -/
theorem windowMoves_iff {before after : Nat} {entries : List RecentBlock} :
    ((entries.filter fun entry => before ≤ entry.timestamp).dropWhile fun entry => entry.timestamp < after) =
        (entries.filter fun entry => after ≤ entry.timestamp) ↔
      WindowMoves before after (entries.map (·.timestamp)) := by
  have kept : (entries.filter fun entry => after ≤ entry.timestamp) =
      entries.filter fun entry => !decide (entry.timestamp < after) := by
    simp [← decide_not]
  rw [kept, dropWhile_filter_eq_iff, WindowMoves, List.filter_map, List.pairwise_map]
  simp [Function.comp_def]

section Credits

variable {α : Type} {block : α → CoinbaseBlock} {inScript inText : α → Option MinerId} {before after : Nat}
  {old : List (CoinbaseBlock × Option MinerId)} {batch : List α}

/-- What the statistics by miner are made of. -/
def credit (entry : CoinbaseBlock × Option MinerId) : Hash × MinerId :=
  (entry.1.hash, entry.2.getD unknownId)

theorem CreditsAll.mined_eq {blocks : List (CoinbaseBlock × Option MinerId)} (credits : CreditsAll after blocks w w₁)
    (id : MinerId) : w₁.blocksMinedByMiners id = (w.blocksMinedByMiners id).map
      (· ++ ((blocks.map credit).filter fun entry => id = entry.2).map (·.1)) := by
  rw [credits.mined, List.filter_map, List.map_map]
  rfl

theorem CreditsAll.miners_eq {blocks : List (CoinbaseBlock × Option MinerId)} (credits : CreditsAll after blocks w w₁) :
    w₁.blockMiners = (blocks.map credit).foldl (fun map entry => mapInsert map entry.1 entry.2) w.blockMiners := by
  rw [credits.miners, List.foldl_map]
  rfl

variable (first : CreditsAll before old w.reset w₀)
  (incremental : CreditsAll after (batch.map fun x => (block x, inScript x))
    { w₀ with recentBlocks := w₀.recentBlocks.dropWhile fun entry => entry.timestamp < after } w₁)
  (full : CreditsAll after (old ++ batch.map fun x => (block x, inText x)) w.reset w₂)

include first incremental full

theorem mined_and_miners_iff (distinct : (batch.map fun x => (block x).hash).Nodup) :
    (w₁.blocksMinedByMiners = w₂.blocksMinedByMiners ∧ w₁.blockMiners = w₂.blockMiners) ↔
      ∀ x ∈ batch, (inScript x).getD unknownId = (inText x).getD unknownId := by
  have minersOf (found : α → Option MinerId) :
      (batch.map fun x => (block x, found x)).map credit =
        batch.map fun x => ((block x).hash, (found x).getD unknownId) := by
    rw [List.map_map]
    rfl
  constructor
  · rintro ⟨-, miners⟩ x member
    have atHash := congrFun miners (block x).hash
    rw [incremental.miners_eq, full.miners_eq, List.map_append, List.foldl_append, minersOf, minersOf, List.foldl_map,
      List.foldl_map, foldl_mapInsert_of_nodup distinct member, foldl_mapInsert_of_nodup distinct member] at atHash
    exact Option.some.inj atHash
  · intro same
    have credits : (batch.map fun x => (block x, inScript x)).map credit =
        (batch.map fun x => (block x, inText x)).map credit := by
      rw [minersOf, minersOf]
      exact List.map_congr_left fun x member => by rw [same x member]
    refine ⟨funext fun id => ?_, ?_⟩
    · rw [incremental.mined_eq, full.mined_eq, first.mined_eq, credits, Option.map_map, List.map_append]
      simp [Function.comp_def]
    · rw [incremental.miners_eq, full.miners_eq, List.map_append, List.foldl_append, credits, first.miners_eq]

theorem recent_iff : w₁.recentBlocks = w₂.recentBlocks ↔
    WindowMoves before after (old.map (·.1.timestamp)) ∧
      ∀ x ∈ batch, after ≤ (block x).timestamp →
        (inScript x).getD unknownId = (inText x).getD unknownId ∧
          nameFor w.rules (inScript x) = nameFor w.rules (inText x) := by
  have rules : w₀.rules = w.rules := first.rules
  have recentIn (cut : Nat) (found : α → Option MinerId) :
      ((batch.map fun x => (block x, found x)).filter fun entry => cut ≤ entry.1.timestamp).map
          (fun entry => recentOf w.rules entry.1 entry.2) =
        (batch.filter fun x => cut ≤ (block x).timestamp).map fun x => recentOf w.rules (block x) (found x) := by
    rw [List.filter_map, List.map_map]
    rfl
  have oldIn (cut : Nat) :
      (old.filter fun entry => cut ≤ entry.1.timestamp).map (fun entry => recentOf w.rules entry.1 entry.2) =
        (old.map fun entry => recentOf w.rules entry.1 entry.2).filter fun entry => cut ≤ entry.timestamp := by
    rw [List.filter_map]
    rfl
  have atReset : w.reset.rules = w.rules ∧ w.reset.recentBlocks = [] := ⟨rfl, rfl⟩
  have timestamps : (old.map fun entry => recentOf w.rules entry.1 entry.2).map (·.timestamp) =
      old.map (·.1.timestamp) := by
    rw [List.map_map]
    rfl
  rw [incremental.recent, full.recent, first.recent, List.filter_append, List.map_append, rules, atReset.1, atReset.2,
    List.nil_append, List.nil_append, recentIn, recentIn, oldIn, oldIn, ← timestamps, ← windowMoves_iff]
  constructor
  · intro same
    obtain ⟨front, back⟩ := List.append_inj' same (by rw [List.length_map, List.length_map])
    refine ⟨front, fun x member recent => ?_⟩
    have equal := List.map_inj_left.mp back x (by simp [member, recent])
    simpa [recentOf] using equal
  · rintro ⟨front, same⟩
    rw [front]
    congr 1
    refine List.map_congr_left fun x member => ?_
    obtain ⟨inBatch, recent⟩ := List.mem_filter.mp member
    obtain ⟨id, name⟩ := same x inBatch (by simpa using recent)
    simp [recentOf, id, name]

end Credits

/-- A block of the batch with its text. -/
def arrived (entry : BlockHeaderWithNumber × Bytes) : CoinbaseBlock :=
  ⟨entry.1.header.hash, entry.1.number, entry.1.header.timestamp.toNat, fromUtf8Lossy entry.2⟩

theorem arrivedBlocks_eq (rulesRegexes : List (MinerId × List Regex)) (batch : List (BlockHeaderWithNumber × Bytes)) :
    arrivedBlocks isMatch rulesRegexes (batch.map (·.1.header.hash)) (batch.map (·.1.number))
        (batch.map (·.1.header.timestamp.toNat)) (batch.map (·.2)) =
      batch.map fun entry => (arrived entry, findMiner isMatch rulesRegexes entry.2) := by
  rw [arrivedBlocks, List.zip_map', List.zip_map', List.zip_map', List.map_map]
  rfl

/-- The old blocks with a text, oldest first. -/
def oldBlocks (old : List BlockHeaderWithNumber) : List CoinbaseBlock :=
  (old.filterMap Chain.coinbaseBlock).reverse

theorem oldBlocks_timestamps {old : List BlockHeaderWithNumber} (downloaded : ∀ b ∈ old, b.coinbaseAscii.isSome) :
    (oldBlocks old).map (·.timestamp) = (old.map (·.header.timestamp.toNat)).reverse := by
  rw [oldBlocks, List.map_reverse, List.map_filterMap, ← List.filterMap_eq_map]
  congr 1
  refine List.filterMap_congr fun b member => ?_
  obtain ⟨text, ascii⟩ := Option.isSome_iff_exists.mp (downloaded b member)
  simp [Chain.coinbaseBlock, ascii]

theorem lastTimestamp_oldBlocks {b : BlockHeaderWithNumber} {old : List BlockHeaderWithNumber} {now : Nat}
    (downloaded : b.coinbaseAscii.isSome) :
    lastTimestamp now (oldBlocks (b :: old)) = b.header.timestamp.toNat := by
  obtain ⟨text, ascii⟩ := Option.isSome_iff_exists.mp downloaded
  simp [lastTimestamp, oldBlocks, Chain.coinbaseBlock, ascii]

namespace Extension

variable {c₀ c : Chain} {oldTop : Option Hash} {newTop : Hash} {old : List BlockHeaderWithNumber}
  {batch : List (BlockHeaderWithNumber × Bytes)} {now : Nat}

theorem oldBlocks (extension : Extension c₀ oldTop old c newTop batch) :
    oldBlocks ((batch.map (·.1)).reverse ++ old) = Miners.oldBlocks old ++ batch.map arrived := by
  have marked : (batch.map (·.1)).filterMap Chain.coinbaseBlock = batch.map arrived := by
    rw [List.filterMap_map, ← List.filterMap_eq_map]
    refine List.filterMap_congr fun entry member => ?_
    simp [Chain.coinbaseBlock, extension.marked entry member, arrived]
  rw [Miners.oldBlocks, List.filterMap_append, List.filterMap_reverse, marked, List.reverse_append,
    List.reverse_reverse]
  rfl

/-- The newest block of the batch. -/
theorem exists_last (extension : Extension c₀ oldTop old c newTop batch) : ∃ front entry, batch = front ++ [entry] :=
  ⟨_, _, (List.dropLast_append_getLast extension.nonempty).symm⟩

theorem distinct (extension : Extension c₀ oldTop old c newTop batch) :
    (batch.map fun entry => (arrived entry).hash).Nodup := by
  have distinct := extension.after.hashes_nodup
  rw [List.map_append, List.map_reverse, List.map_map] at distinct
  exact List.nodup_reverse.mp (List.nodup_append.mp distinct).1

section Runs

variable (isMatch) (p) (share) (now)

/-- The statistics of the old chain. -/
theorem recalculate_old (extension : Extension c₀ oldTop old c newTop batch)
    (matched : ∀ entry ∈ w.rulesRegexes, (lookupEntry w.rules entry.1).isSome) :
    ∃ w₀, w.recalculateFullMinerStats isMatch p share c₀ now oldTop = .ok w₀ ∧ w₀.Consistent ∧
      CreditsAll (recentAfter old) (storedBlocks isMatch w.rulesRegexes (Miners.oldBlocks old)) w.reset w₀ := by
  cases oldTop with
  | none =>
    have empty : old = [] := extension.before
    rw [empty]
    exact ⟨w.reset, rfl, consistent_reset matched, rfl, rfl, by simp [Miners.oldBlocks, storedBlocks], rfl,
      by simp [Miners.oldBlocks, storedBlocks]⟩
  | some top =>
    have ancestry : c₀.Ancestry top old := extension.before
    obtain ⟨b, older, rfl⟩ := ancestry.exists_cons
    have last : lastTimestamp now (Miners.oldBlocks (b :: older)) = b.header.timestamp.toNat :=
      lastTimestamp_oldBlocks (extension.downloaded b List.mem_cons_self)
    have dated : minerPercentageOverLastSeconds ≤ lastTimestamp now (Miners.oldBlocks (b :: older)) :=
      last ▸ extension.dated b (by simp)
    obtain ⟨w₀, result, consistent, credits⟩ := recalculate_ok (p := p) isMatch share ancestry matched dated
    refine ⟨w₀, result, consistent, ?_⟩
    rw [← Miners.oldBlocks, last] at credits
    exact credits

/-- The statistics of the new chain. -/
theorem recalculate_new (extension : Extension c₀ oldTop old c newTop batch)
    (matched : ∀ entry ∈ w.rulesRegexes, (lookupEntry w.rules entry.1).isSome) :
    ∃ w₂, w.recalculateFullMinerStats isMatch p share c now (some newTop) = .ok w₂ ∧ w₂.Consistent ∧
      CreditsAll (recentAfter ((batch.map (·.1)).reverse ++ old))
        (storedBlocks isMatch w.rulesRegexes (Miners.oldBlocks old) ++ batch.map fun entry =>
          (arrived entry, findMiner isMatch w.rulesRegexes (asBytes (fromUtf8Lossy entry.2)))) w.reset w₂ := by
  obtain ⟨front, entry, split⟩ := extension.exists_last
  have inBatch : entry ∈ batch := by simp [split]
  have whole : (batch.map (·.1)).reverse ++ old = entry.1 :: ((front.map (·.1)).reverse ++ old) := by simp [split]
  have last : lastTimestamp now (Miners.oldBlocks ((batch.map (·.1)).reverse ++ old)) =
      entry.1.header.timestamp.toNat := by
    rw [whole]
    exact lastTimestamp_oldBlocks (by simp [extension.marked entry inBatch])
  have dated : minerPercentageOverLastSeconds ≤ lastTimestamp now (Miners.oldBlocks ((batch.map (·.1)).reverse ++ old)) :=
    last ▸ extension.dated entry.1 (by simp [whole])
  obtain ⟨w₂, result, consistent, credits⟩ := recalculate_ok (p := p) isMatch share extension.after matched dated
  refine ⟨w₂, result, consistent, ?_⟩
  rw [← Miners.oldBlocks, last, extension.oldBlocks, storedBlocks, List.map_append, List.map_map] at credits
  rw [whole]
  exact credits

/-- The statistics of the old chain extended by the batch. -/
theorem callbackChainExtended (extension : Extension c₀ oldTop old c newTop batch) (consistent : w₀.Consistent) :
    ∃ w₁, w₀.callbackChainExtended isMatch p share (batch.map (·.1.header.hash)) (batch.map (·.1.number))
        (batch.map (·.1.header.timestamp.toNat)) (batch.map (·.2)) = .ok w₁ ∧ w₁.Consistent ∧
      CreditsAll (recentAfter ((batch.map (·.1)).reverse ++ old))
        (batch.map fun entry => (arrived entry, findMiner isMatch w₀.rulesRegexes entry.2))
        { w₀ with recentBlocks := w₀.recentBlocks.dropWhile fun entry =>
            entry.timestamp < recentAfter ((batch.map (·.1)).reverse ++ old) } w₁ := by
  obtain ⟨front, entry, split⟩ := extension.exists_last
  have last : (batch.map (·.1.header.timestamp.toNat)).getLast? = some entry.1.header.timestamp.toNat := by simp [split]
  have newest : recentAfter ((batch.map (·.1)).reverse ++ old) =
      entry.1.header.timestamp.toNat - minerPercentageOverLastSeconds := by simp [recentAfter, split]
  obtain ⟨w₁, result, after, credits⟩ := consistent.callbackChainExtended (p := p) isMatch share last
    (extension.dated entry.1 (by simp [split])) (batch.map (·.1.header.hash)) (batch.map (·.1.number)) (batch.map (·.2))
  rw [arrivedBlocks_eq, ← newest] at credits
  exact ⟨w₁, result, after, credits⟩

end Runs

end Extension

/-- The statistics extended by a batch are those of a full recalculation exactly when the rules
find the same miners in the scripts of the batch as in their texts and the window of recent
blocks moves on. -/
theorem chainExtended_agrees_iff (newRegex : String → Outcome Regex) {c₀ c : Chain} {oldTop : Option Hash}
    {newTop : Hash} {old : List BlockHeaderWithNumber} {batch : List (BlockHeaderWithNumber × Bytes)} {now now' : Nat}
    (compiled : Compiled newRegex w.rules w.rulesRegexes) (extension : Extension c₀ oldTop old c newTop batch) :
    ∃ w₀ w₁ w₂, w.recalculateFullMinerStats isMatch p share c₀ now oldTop = .ok w₀ ∧
      w₀.callbackChainExtended isMatch p share (batch.map (·.1.header.hash)) (batch.map (·.1.number))
        (batch.map (·.1.header.timestamp.toNat)) (batch.map (·.2)) = .ok w₁ ∧
      w.recalculateFullMinerStats isMatch p share c now' (some newTop) = .ok w₂ ∧
      (Agrees w₁ w₂ ↔
        (∀ entry ∈ batch, SameMiner isMatch w
          (recentAfter ((batch.map (·.1)).reverse ++ old) ≤ entry.1.header.timestamp.toNat) entry.2) ∧
        WindowMoves (recentAfter old) (recentAfter ((batch.map (·.1)).reverse ++ old))
          (old.map (·.header.timestamp.toNat)).reverse) := by
  obtain ⟨w₀, first, atOld, creditsOld⟩ := extension.recalculate_old isMatch p share now compiled.matched
  obtain ⟨w₁, extended, atBatch, creditsBatch⟩ := extension.callbackChainExtended isMatch p share atOld
  obtain ⟨w₂, full, atNew, creditsNew⟩ := extension.recalculate_new isMatch p share now' compiled.matched
  refine ⟨w₀, w₁, w₂, first, extended, full, ?_⟩
  have rules : w₁.rules = w₂.rules := (creditsBatch.rules.trans creditsOld.rules).trans creditsNew.rules.symm
  have timestamps : (storedBlocks isMatch w.rulesRegexes (oldBlocks old)).map (·.1.timestamp) =
      (old.map (·.header.timestamp.toNat)).reverse := by
    rw [← oldBlocks_timestamps extension.downloaded, storedBlocks, List.map_map]
    rfl
  have found : (batch.map fun entry => (arrived entry, findMiner isMatch w₀.rulesRegexes entry.2)) =
      batch.map fun entry => (arrived entry, findMiner isMatch w.rulesRegexes entry.2) := by
    rw [creditsOld.rulesRegexes]
    rfl
  rw [found] at creditsBatch
  have byMiner := mined_and_miners_iff creditsOld creditsBatch creditsNew extension.distinct
  have byWindow := recent_iff creditsOld creditsBatch creditsNew
  rw [timestamps] at byWindow
  rw [atBatch.agrees_iff atNew rules, ← and_assoc, byMiner, byWindow]
  constructor
  · rintro ⟨same, moves, recent⟩
    exact ⟨fun entry member => ⟨same entry member, fun inside => (recent entry member inside).2⟩, moves⟩
  · rintro ⟨same, moves⟩
    exact ⟨fun entry member => (same entry member).1, moves, fun entry member inside =>
      ⟨(same entry member).1, (same entry member).2 inside⟩⟩

/-- A downloaded block without a coinbase text. -/
def plainBlock (number : Nat) (hash parent : Hash) (timestamp : UInt32) : BlockHeaderWithNumber :=
  ⟨{ genesisHeader with hash := hash, parent := parent, timestamp := timestamp }, number, true, 0, some ""⟩

def firstBlock : BlockHeaderWithNumber := plainBlock 0 genesisHeader.hash emptyHash 1231006505

/-- Two weeks and ten seconds after the first block. -/
def secondBlock : BlockHeaderWithNumber := plainBlock 1 (ByteArr.fill 32 1) genesisHeader.hash 1232216115

/-- Ten seconds before the second one. -/
def thirdBlock : BlockHeaderWithNumber := plainBlock 2 (ByteArr.fill 32 2) (ByteArr.fill 32 1) 1232216105

def chainOfTwo : Chain where
  topHeader := secondBlock
  knownHeaders :=
    mapInsert (mapInsert (fun _ => none) firstBlock.header.hash firstBlock) secondBlock.header.hash secondBlock
  numberToHash := fun _ => none
  mostWorkChain := ∅

def chainOfThree : Chain :=
  { chainOfTwo with
    topHeader := thirdBlock
    knownHeaders := mapInsert chainOfTwo.knownHeaders thirdBlock.header.hash thirdBlock }

theorem extension_three : Extension chainOfTwo (some secondBlock.header.hash) [secondBlock, firstBlock] chainOfThree
    thirdBlock.header.hash [(thirdBlock, [])] where
  before := .child (by decide) rfl (by decide) rfl (.root (by decide) rfl rfl rfl)
  after :=
    .child (by decide) rfl (by decide) rfl (.child (by decide) rfl (by decide) rfl (.root (by decide) rfl rfl rfl))
  nonempty := List.cons_ne_nil _ _
  downloaded := by decide
  marked := by decide
  dated := by decide

theorem chainExtended_agrees_iff_three :
    ∃ w₀ w₁ w₂, binanceMiners.recalculateFullMinerStats wordMatch .dev (fun a b => (a : ℚ) / b) chainOfTwo 1700000000
        (some secondBlock.header.hash) = .ok w₀ ∧
      w₀.callbackChainExtended wordMatch .dev (fun a b => (a : ℚ) / b) [thirdBlock.header.hash] [2] [1232216105]
        [[]] = .ok w₁ ∧
      binanceMiners.recalculateFullMinerStats wordMatch .dev (fun a b => (a : ℚ) / b) chainOfThree 1700000000
        (some thirdBlock.header.hash) = .ok w₂ ∧
      (Agrees w₁ w₂ ↔
        (∀ entry ∈ [(thirdBlock, ([] : Bytes))], SameMiner wordMatch binanceMiners
          (recentAfter [thirdBlock, secondBlock, firstBlock] ≤ entry.1.header.timestamp.toNat) entry.2) ∧
        WindowMoves (recentAfter [secondBlock, firstBlock]) (recentAfter [thirdBlock, secondBlock, firstBlock])
          [1231006505, 1232216115]) :=
  chainExtended_agrees_iff wordRegex ⟨_, rfl, List.Perm.refl _⟩ extension_three

/-- The first block is recent again below the third one. -/
theorem chainExtended_agrees_fails :
    Extension chainOfTwo (some secondBlock.header.hash) [secondBlock, firstBlock] chainOfThree
        thirdBlock.header.hash [(thirdBlock, [])] ∧
      ∃ w₀ w₁ w₂,
        binanceMiners.recalculateFullMinerStats wordMatch .dev (fun a b => (a : ℚ) / b) chainOfTwo 1700000000
          (some secondBlock.header.hash) = .ok w₀ ∧
        w₀.callbackChainExtended wordMatch .dev (fun a b => (a : ℚ) / b) [thirdBlock.header.hash] [2] [1232216105]
          [[]] = .ok w₁ ∧
        binanceMiners.recalculateFullMinerStats wordMatch .dev (fun a b => (a : ℚ) / b) chainOfThree 1700000000
          (some thirdBlock.header.hash) = .ok w₂ ∧
        ¬ Agrees w₁ w₂ := by
  refine ⟨extension_three, _, _, _, rfl, rfl, rfl, fun agrees => ?_⟩
  exact absurd (congrArg List.length agrees.recent) (by decide)

end Miners

end Bitlens

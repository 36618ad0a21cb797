import Bitlens.AddressSeparation
import Bitlens.Miners
import Bitlens.Stats
import Bitlens.StoredTx

namespace Bitlens
open Lib

def frontpageTxsCount : Nat := 50

def frontpageBlocksCount : Nat := 50

structure ShortBlock (F : Type) where
  number : Nat
  hash : Hash
  txCount : Nat
  rewardSats : UInt64
  timestamp : Nat
  minerId : MinerId
  minerName : String
  recentMinerShare : F

structure ShortTx where
  hash : String
  value : UInt64
  sizeWus : UInt32
  timestamp : Nat
  blockNumber : Nat
  blockHash : Hash
  feeSats : UInt64

structure SyncStats (F : Type) where
  totalBlocks : Nat
  syncedBlocks : Nat
  approxRemainingSeconds : F

structure FrontPageData (F : Type) where
  stats : Stats F
  latestBlocks : List (ShortBlock F)
  latestTxs : List ShortTx
  syncStats : Option (SyncStats F)

/-- The `f64` operations of the front page: the share of a miner in a number of blocks and the time
that is left at a speed, next to those of the statistics. -/
structure PageFloats (F : Type) extends Floats F where
  share : Nat → Nat → F
  remaining : Nat → F → F

variable {Regex F : Type} [Zero F]

/-- What the front page is made from. -/
structure Backing (Regex F : Type) where
  chain : Chain
  miners : Miners Regex F
  stores : Stores
  findBlockMetrics : Hash → Option (BlockMetrics F)

/-- The entry pushed for a block. -/
def shortBlock (header : BlockHeaderWithNumber) (txCount : Nat) (rewardSats : UInt64) (miner : MinerId × String × F) :
    ShortBlock F :=
  ⟨header.number, header.header.hash, txCount, rewardSats, header.time, miner.1, miner.2.1, miner.2.2⟩

/-- The entry pushed for a transaction. -/
def shortTx (header : BlockHeaderWithNumber) (hash : Hash) (value fee : UInt64) (sizeWus : UInt32) : ShortTx :=
  ⟨hexEncode hash.1.reverse, value, sizeWus, header.time, header.number, header.header.hash, fee⟩

/-- The loop of `generate_frontpage_data`. -/
def generateLoop (p : Profile) (f : PageFloats F) (s : Backing Regex F) :
    Nat → BlockHeaderWithNumber → List (ShortBlock F) → List ShortTx → Outcome (List (ShortBlock F) × List ShortTx)
  | 0, _, _, _ => .fault
  | fuel + 1, currentHeader, latestBlocks, latestTxs =>
    if latestBlocks.length = frontpageBlocksCount ∧ latestTxs.length = frontpageTxsCount then
      .ok (latestBlocks, latestTxs)
    else do
      let blockTxHashes ← expect (getBlockTxEntries s.stores.blockTxs currentHeader.header.hash)
      let found ← s.miners.getMinerForBlockAndShare f.share currentHeader.header.hash
      let miner ← Outcome.unwrap found
      let first ← Outcome.unwrap blockTxHashes.head?
      let latestBlocks := latestBlocks ++ [shortBlock currentHeader blockTxHashes.length first.valueSats miner]
      let room ← p.sub 64 frontpageTxsCount latestTxs.length
      let missingTxs := min room blockTxHashes.length
      let txs ← Outcome.mapM (fun txEntry => do
        let tx ← expect (getAnalyzedTx s.stores.txs txEntry.hash)
        pure (shortTx currentHeader txEntry.hash tx.txoutsSum tx.fee tx.sizeWus)) (blockTxHashes.take missingTxs)
      let latestTxs := latestTxs ++ txs
      if currentHeader.header.parent = emptyHash then pure (latestBlocks, latestTxs)
      else do
        let currentHeader ← Outcome.unwrap (s.chain.knownHeaders currentHeader.header.parent)
        generateLoop p f s fuel currentHeader latestBlocks latestTxs

/-- `generate_frontpage_data`, from the data of `FRONTPAGE_STATS` to what it puts there. The heights
fall, so that of the top bounds the loop. -/
def generateFrontpageData (p : Profile) (f : PageFloats F) (s : Backing Regex F) (topBlockHash : Hash)
    (w : FrontPageData F) : Outcome (FrontPageData F) :=
  match calculateStats p f.toFloats s.chain s.findBlockMetrics topBlockHash none with
  | .err => .ok w
  | .fault => .fault
  | .ok stats => do
    let currentHeader ← Outcome.unwrap (s.chain.knownHeaders topBlockHash)
    let (latestBlocks, latestTxs) ← generateLoop p f s (currentHeader.number + 1) currentHeader [] []
    pure ⟨stats, latestBlocks, latestTxs, none⟩

/-- The loop of `update_frontpage_data` over `analyzed_cache[..i]`, last block first. -/
def updateLoop (p : Profile) (f : PageFloats F) (s : Backing Regex F) :
    List (List SerializedTx) → BlockHeaderWithNumber → List (ShortBlock F) → List ShortTx →
      Outcome (List (ShortBlock F) × List ShortTx)
  | [], _, latestBlocks, latestTxs => .ok (latestBlocks, latestTxs)
  | blockTxs :: rest, currentHeader, latestBlocks, latestTxs =>
    if latestBlocks.length = frontpageBlocksCount ∧ latestTxs.length = frontpageTxsCount then
      .ok (latestBlocks, latestTxs)
    else do
      let found ← s.miners.getMinerForBlockAndShare f.share currentHeader.header.hash
      let miner ← Outcome.unwrap found
      let first ← Outcome.unwrap blockTxs.head?
      let latestBlocks := latestBlocks ++ [shortBlock currentHeader blockTxs.length first.txoutsSum miner]
      let room ← p.sub 64 frontpageTxsCount latestTxs.length
      let missingTxs := min room blockTxs.length
      let latestTxs := latestTxs ++
        (blockTxs.take missingTxs).map fun tx => shortTx currentHeader tx.hash tx.txoutsSum tx.fee tx.sizeWus
      if rest.isEmpty then pure (latestBlocks, latestTxs)
      else do
        let currentHeader ← Outcome.unwrap (s.chain.knownHeaders currentHeader.header.parent)
        updateLoop p f s rest currentHeader latestBlocks latestTxs

/-- The sync status at the end of `update_frontpage_data`. -/
def syncStatus (p : Profile) (f : PageFloats F) (topNumber topSyncedBlockNumber : Nat)
    (syncSpeedBlocksPerSecond : Option F) : Outcome (Option (SyncStats F)) := do
  let remainingBlocks ← p.sub 64 topNumber topSyncedBlockNumber
  match syncSpeedBlocksPerSecond with
  | some speed =>
    if remainingBlocks ≠ 0 then do
      let totalBlocks ← p.add 64 topNumber 1
      let syncedBlocks ← p.add 64 topSyncedBlockNumber 1
      pure (some ⟨totalBlocks, syncedBlocks, f.remaining remainingBlocks speed⟩)
    else pure none
  | none => pure none

/-- `update_frontpage_data`, from the data of `FRONTPAGE_STATS` to what it puts there. -/
def updateFrontpageData (p : Profile) (f : PageFloats F) (s : Backing Regex F) (topBlockHash : Hash)
    (metricsCache : List (BlockMetrics F)) (analyzedCache : List (List SerializedTx))
    (syncSpeedBlocksPerSecond : Option F) (w : FrontPageData F) : Outcome (FrontPageData F) :=
  match calculateStats p f.toFloats s.chain s.findBlockMetrics topBlockHash (some metricsCache) with
  | .err => .ok w
  | .fault => .fault
  | .ok stats => do
    let currentHeader ← Outcome.unwrap (s.chain.knownHeaders topBlockHash)
    let (latestBlocks, latestTxs) ← updateLoop p f s analyzedCache.reverse currentHeader [] []
    let syncStats ← syncStatus p f s.chain.topHeader.number currentHeader.number syncSpeedBlocksPerSecond
    let missingBlocks ← p.sub 64 frontpageBlocksCount latestBlocks.length
    let missingTxs ← p.sub 64 frontpageTxsCount latestTxs.length
    let latestBlocks := if missingBlocks ≠ 0 then
      latestBlocks ++ w.latestBlocks.take (min missingBlocks w.latestBlocks.length) else latestBlocks
    let latestTxs := if missingTxs ≠ 0 then
      latestTxs ++ w.latestTxs.take (min missingTxs w.latestTxs.length) else latestTxs
    pure ⟨stats, latestBlocks, latestTxs, syncStats⟩

end Bitlens

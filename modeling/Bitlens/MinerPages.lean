import Bitlens.MinerStats
import Bitlens.Lib.Cursor

namespace Bitlens
open Lib

namespace Chain

def tryGetBlockTimestampsAndNumbersAndCbAsciis (c : Chain) (hashes : List Hash) : Option (List (Nat × Nat × String)) :=
  hashes.mapM fun hash => (c.knownHeaders hash).map fun v =>
    (v.header.timestamp.toNat, v.number, v.coinbaseAscii.getD "")

end Chain

namespace Miners

variable {Regex F : Type}

/-- `None` stands for the error of a lookup. -/
def getBlockData (r : Miners Regex F) (c : Chain) (hashes : List Hash) : Option (List RecentBlock) := do
  let data ← c.tryGetBlockTimestampsAndNumbersAndCbAsciis hashes
  pure ((hashes.zip data).map fun (hash, timestamp, number, coinbaseAscii) =>
    let minerId := (r.blockMiners hash).getD unknownId
    { hash := hash
      number := number
      coinbaseAscii := coinbaseAscii
      minerName :=
        if minerId = unknownId then "UNKNOWN" else ((lookupEntry r.rules minerId).map (·.displayName)).getD "UNKNOWN"
      minerId := minerId
      timestamp := timestamp })

def getMinerBlocks (r : Miners Regex F) (c : Chain) (id : MinerId) (limit : Nat) (after : Option Hash) :
    List RecentBlock :=
  match r.blocksMinedByMiners id with
  | none => []
  | some blocks =>
    let hashes := match after with
      | some v => (blocks.reverse.dropWhile (· ≠ v)).take limit
      | none => blocks.reverse.take limit
    (r.getBlockData c hashes).getD []

/-- The blocks listed for a miner, oldest first. -/
def minedBy (r : Miners Regex F) (id : MinerId) : List Hash :=
  (r.blocksMinedByMiners id).getD []

/-- The hashes that a page is made for. -/
def pageHashes (r : Miners Regex F) (id : MinerId) (limit : Nat) : Option Hash → List Hash
  | some v => ((r.minedBy id).reverse.dropWhile (· ≠ v)).take limit
  | none => (r.minedBy id).reverse.take limit

variable {r : Miners Regex F} {c : Chain} {id : MinerId} {limit : Nat} {after : Option Hash} {hashes : List Hash}

theorem getBlockData_isSome_iff : (r.getBlockData c hashes).isSome ↔ ∀ hash ∈ hashes, c.Known hash := by
  have known : (c.tryGetBlockTimestampsAndNumbersAndCbAsciis hashes).isSome ↔ ∀ hash ∈ hashes, c.Known hash := by
    simp [Chain.tryGetBlockTimestampsAndNumbersAndCbAsciis, mapM_isSome_iff, Chain.Known]
  rw [← known, getBlockData]
  cases c.tryGetBlockTimestampsAndNumbersAndCbAsciis hashes <;> simp

/-- The entries of a page are about its hashes, in their order. -/
theorem getBlockData_hashes {entries : List RecentBlock} (found : r.getBlockData c hashes = some entries) :
    entries.map (·.hash) = hashes := by
  obtain ⟨data, lookups, found⟩ := Option.bind_eq_some_iff.mp found
  cases found
  have length : data.length = hashes.length := length_of_mapM lookups
  rw [List.map_map]
  exact List.map_fst_zip (Nat.le_of_eq length.symm)

theorem getMinerBlocks_eq (r : Miners Regex F) (c : Chain) (id : MinerId) (limit : Nat) (after : Option Hash) :
    r.getMinerBlocks c id limit after = (r.getBlockData c (r.pageHashes id limit after)).getD [] := by
  rw [getMinerBlocks]
  cases mined : r.blocksMinedByMiners id with
  | none =>
    cases after <;>
      simp [pageHashes, minedBy, mined, getBlockData, Chain.tryGetBlockTimestampsAndNumbersAndCbAsciis]
  | some blocks => cases after <;> simp [pageHashes, minedBy, mined]

theorem pageHashes_subset {hash : Hash} (member : hash ∈ r.pageHashes id limit after) : hash ∈ r.minedBy id := by
  cases after with
  | none => exact List.mem_reverse.mp (List.mem_of_mem_take member)
  | some v => exact List.mem_reverse.mp ((List.dropWhile_sublist _).subset (List.mem_of_mem_take member))

/-- The page behind a block of the miner starts with that block again. -/
theorem pageHashes_ne_nil {hash : Hash} (positive : 0 < limit) (member : hash ∈ r.minedBy id) :
    r.pageHashes id limit (some hash) ≠ [] := by
  intro empty
  rcases List.take_eq_nil_iff.mp empty with zero | empty
  · exact absurd zero (Nat.ne_of_gt positive)
  · have other := List.dropWhile_eq_nil_iff.mp empty hash (List.mem_reverse.mpr member)
    simp at other

theorem mem_getMinerBlocks {entry : RecentBlock} (member : entry ∈ r.getMinerBlocks c id limit after) :
    entry.hash ∈ r.minedBy id ∧ c.Known entry.hash := by
  rw [getMinerBlocks_eq] at member
  cases found : r.getBlockData c (r.pageHashes id limit after) with
  | none =>
    rw [found] at member
    cases member
  | some entries =>
    rw [found, Option.getD_some] at member
    have inPage : entry.hash ∈ r.pageHashes id limit after := by
      rw [← getBlockData_hashes found]
      exact List.mem_map_of_mem member
    have known := getBlockData_isSome_iff.mp (Option.isSome_iff_exists.mpr ⟨entries, found⟩)
    exact ⟨pageHashes_subset inPage, known entry.hash inPage⟩

/-- With the headers of all blocks of a miner known, no page behind one of them is empty. -/
theorem getMinerBlocks_ne_nil {hash : Hash} (positive : 0 < limit) (known : ∀ hash ∈ r.minedBy id, c.Known hash)
    (member : hash ∈ r.minedBy id) : r.getMinerBlocks c id limit (some hash) ≠ [] := by
  have all : (r.getBlockData c (r.pageHashes id limit (some hash))).isSome :=
    getBlockData_isSome_iff.mpr fun other inPage => known other (pageHashes_subset inPage)
  obtain ⟨entries, found⟩ := Option.isSome_iff_exists.mp all
  rw [getMinerBlocks_eq, found, Option.getD_some]
  rintro rfl
  exact pageHashes_ne_nil positive member (getBlockData_hashes found).symm

/-- The last block of a page is one of the miner, so the page behind it is not empty. -/
theorem endless (positive : 0 < limit) (known : ∀ hash ∈ r.minedBy id, c.Known hash) (cursor : Option Hash)
    (last : RecentBlock) (ends : (r.getMinerBlocks c id limit cursor).getLast? = some last) :
    r.getMinerBlocks c id limit (some last.hash) ≠ [] :=
  getMinerBlocks_ne_nil positive known (mem_getMinerBlocks (List.mem_of_getLast? ends)).1

/-- The requests for the blocks of a miner, each with the last block of the page before it. -/
abbrev MinerPages (r : Miners Regex F) (c : Chain) (id : MinerId) (limit : Nat) (pages : List (List RecentBlock)) :
    Prop :=
  Pages (r.getMinerBlocks c id limit) (fun entry => some entry.hash) none pages

/-- The requests come to an end with every block of the miner once, newest first, only for a miner
without a block. -/
theorem minerPages_iff (r : Miners Regex F) (c : Chain) (id : MinerId) (positive : 0 < limit) :
    (∃ pages, MinerPages r c id limit pages ∧ pages.flatten.map (·.hash) = (r.minedBy id).reverse) ↔
      r.minedBy id = [] := by
  constructor
  · rintro ⟨pages, run, all⟩
    have known : ∀ hash ∈ r.minedBy id, c.Known hash := by
      intro hash member
      rw [← List.mem_reverse, ← all] at member
      obtain ⟨entry, inPages, rfl⟩ := List.mem_map.mp member
      obtain ⟨cursor, inPage⟩ := run.mem_request inPages
      exact (mem_getMinerBlocks inPage).2
    have none : pages = [] := run.eq_nil_of_endless (endless positive known)
    rw [none] at all
    exact List.reverse_eq_nil_iff.mp all.symm
  · intro nothing
    refine ⟨[], .stop ?_, by simp [nothing]⟩
    rw [getMinerBlocks_eq]
    simp [pageHashes, nothing, getBlockData, Chain.tryGetBlockTimestampsAndNumbersAndCbAsciis]

/-- The genesis block was mined by Binance. -/
def binanceGenesis : Miners Bytes ℚ :=
  { binanceMiners with blocksMinedByMiners := mapInsert (fun _ => none) "binance" [genesisHeader.hash] }

theorem minerPages_iff_genesis :
    (∃ pages, MinerPages binanceGenesis Chain.default "binance" 50 pages ∧
        pages.flatten.map (·.hash) = (binanceGenesis.minedBy "binance").reverse) ↔
      binanceGenesis.minedBy "binance" = [] :=
  minerPages_iff binanceGenesis Chain.default "binance" (by decide)

/-- Its page comes again and again. -/
theorem minerPages_fails : ¬ ∃ pages, MinerPages binanceGenesis Chain.default "binance" 50 pages := by
  rintro ⟨pages, run⟩
  have mined : binanceGenesis.minedBy "binance" = [genesisHeader.hash] := by simp [minedBy, binanceGenesis]
  have known : ∀ hash ∈ binanceGenesis.minedBy "binance", Chain.default.Known hash := by
    simp [mined, Chain.Known, Chain.default]
  have none := run.eq_nil_of_endless (endless (by decide) known)
  rw [none] at run
  cases run with
  | stop empty => exact absurd empty (by decide)

end Miners

end Bitlens

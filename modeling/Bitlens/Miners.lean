import Bitlens.Ancestry
import Bitlens.Lib.Entries

namespace Bitlens
open Lib

abbrev MinerId := String

structure Miner where
  displayName : String
  icon : Option String
  regexes : List String

structure RecentBlock where
  hash : Hash
  number : Nat
  coinbaseAscii : String
  minerId : MinerId
  minerName : String
  timestamp : Nat
  deriving DecidableEq

/-- `Regex` is the type of compiled regexes and `F` that of `f64`. The maps that are iterated
over are lists of entries. -/
structure Miners (Regex F : Type) where
  rules : List (MinerId × Miner)
  rulesRegexes : List (MinerId × List Regex)
  blocksMinedByMiners : MinerId → Option (List Hash)
  recentBlocksMinedByMinersCounts : List (MinerId × Nat)
  blockMiners : Hash → Option MinerId
  recentBlocks : List RecentBlock
  recentShares : List (MinerId × String × F)

def minerPercentageOverLastSeconds : Nat := 3600 * 24 * 14

def unknownId : MinerId := "unknown"

/-- `String::as_bytes`. -/
def asBytes (text : String) : Bytes :=
  text.toByteArray.data.toList

/-- A block with its number, timestamp and coinbase text. -/
structure CoinbaseBlock where
  hash : Hash
  number : Nat
  timestamp : Nat
  coinbaseAscii : String

/-! The functions of the chain manager that the callbacks call. -/

namespace Chain

def getTopSyncedHeaderHashLoop (c : Chain) : Nat → Hash → Outcome (Option Hash)
  | 0, _ => .fault
  | fuel + 1, lastHash => do
    let header ← Outcome.unwrap (c.knownHeaders lastHash)
    if header.fetchedFull then pure (some lastHash)
    else if header.header.parent = emptyHash then pure none
    else c.getTopSyncedHeaderHashLoop fuel header.header.parent

/-- The heights fall, so that of the top bounds the loop. -/
def getTopSyncedHeaderHash (c : Chain) : Outcome (Option Hash) :=
  c.getTopSyncedHeaderHashLoop (c.heightOf c.topHeader.header.hash + 1) c.topHeader.header.hash

def getBlocksLoop (c : Chain) : Nat → Hash → List CoinbaseBlock → Outcome (List CoinbaseBlock)
  | 0, _, _ => .fault
  | fuel + 1, last, result => do
    let header ← Outcome.unwrap (c.knownHeaders last)
    let result := match header.coinbaseAscii with
      | some v => result ++ [⟨last, header.number, header.header.timestamp.toNat, v⟩]
      | none => result
    if header.header.parent = emptyHash then pure result
    else c.getBlocksLoop fuel header.header.parent result

def getBlocksWithTimestampsAndCoinbaseAsciis (c : Chain) (last : Hash) : Outcome (List CoinbaseBlock) := do
  let result ← c.getBlocksLoop (c.heightOf last + 1) last []
  pure result.reverse

/-- What the walk records of a header with a coinbase text. -/
def coinbaseBlock (b : BlockHeaderWithNumber) : Option CoinbaseBlock :=
  b.coinbaseAscii.map fun v => ⟨b.header.hash, b.number, b.header.timestamp.toNat, v⟩

variable {c : Chain} {hash : Hash} {blocks : List BlockHeaderWithNumber}

theorem Ancestry.getBlocksLoop (ancestry : c.Ancestry hash blocks) {fuel : Nat} (enough : blocks.length ≤ fuel)
    (result : List CoinbaseBlock) :
    c.getBlocksLoop fuel hash result = .ok (result ++ blocks.filterMap coinbaseBlock) := by
  induction ancestry generalizing fuel result with
  | @root hash b stored keyed bottom =>
    obtain ⟨fuel, rfl⟩ := Nat.exists_eq_succ_of_ne_zero (Nat.ne_of_gt enough)
    rw [Chain.getBlocksLoop, stored, Outcome.unwrap_some, Outcome.ok_bind, if_pos bottom]
    cases ascii : b.coinbaseAscii <;> simp [coinbaseBlock, ascii, keyed]
  | @child hash b older stored keyed above number rest ih =>
    obtain ⟨fuel, rfl⟩ := Nat.exists_eq_succ_of_ne_zero (Nat.ne_of_gt (Nat.zero_lt_of_lt enough))
    rw [Chain.getBlocksLoop, stored, Outcome.unwrap_some, Outcome.ok_bind, if_neg above]
    cases ascii : b.coinbaseAscii <;> simp [coinbaseBlock, ascii, keyed, ih (Nat.le_of_succ_le_succ enough)]

/-- The walk finds the downloaded headers of the branch, oldest first. -/
theorem Ancestry.getBlocks (ancestry : c.Ancestry hash blocks) :
    c.getBlocksWithTimestampsAndCoinbaseAsciis hash = .ok (blocks.filterMap coinbaseBlock).reverse := by
  obtain ⟨b, older, rfl⟩ := ancestry.exists_cons
  have loop := ancestry.getBlocksLoop (Nat.le_refl _) []
  rw [List.length_cons] at loop
  rw [getBlocksWithTimestampsAndCoinbaseAsciis, ancestry.heightOf, loop]
  rfl

theorem Ancestry.getTopSyncedHeaderHashLoop (ancestry : c.Ancestry hash blocks) {fuel : Nat}
    (enough : blocks.length ≤ fuel) :
    c.getTopSyncedHeaderHashLoop fuel hash = .ok ((blocks.find? (·.fetchedFull)).map (·.header.hash)) := by
  induction ancestry generalizing fuel with
  | @root hash b stored keyed bottom =>
    obtain ⟨fuel, rfl⟩ := Nat.exists_eq_succ_of_ne_zero (Nat.ne_of_gt enough)
    rw [Chain.getTopSyncedHeaderHashLoop, stored, Outcome.unwrap_some, Outcome.ok_bind, if_pos bottom]
    cases fetched : b.fetchedFull <;> simp [fetched, keyed]
  | @child hash b older stored keyed above number rest ih =>
    obtain ⟨fuel, rfl⟩ := Nat.exists_eq_succ_of_ne_zero (Nat.ne_of_gt (Nat.zero_lt_of_lt enough))
    rw [Chain.getTopSyncedHeaderHashLoop, stored, Outcome.unwrap_some, Outcome.ok_bind, if_neg above]
    cases fetched : b.fetchedFull <;> simp [fetched, keyed, ih (Nat.le_of_succ_le_succ enough)]

/-- The newest downloaded header of the branch of the top. -/
theorem Ancestry.getTopSyncedHeaderHash (ancestry : c.Ancestry c.topHeader.header.hash blocks) :
    c.getTopSyncedHeaderHash = .ok ((blocks.find? (·.fetchedFull)).map (·.header.hash)) := by
  obtain ⟨b, older, rfl⟩ := ancestry.exists_cons
  rw [Chain.getTopSyncedHeaderHash, ancestry.heightOf]
  exact ancestry.getTopSyncedHeaderHashLoop (Nat.le_refl _)

end Chain

/-! The rules. -/

/-- `compile_regexes`; `newRegex` is `Regex::new`. The iterator of the new map may list its
entries in another order. -/
def compileRegexes {Regex : Type} (newRegex : String → Outcome Regex) :
    List (MinerId × Miner) → Outcome (List (MinerId × List Regex))
  | [] => .ok []
  | (id, miner) :: rest => do
    let compiledRegrets ← Outcome.mapM (fun regex => newRegex ("(?i)" ++ regex)) miner.regexes
    let result ← compileRegexes newRegex rest
    pure ((id, compiledRegrets) :: result)

namespace Miners

variable {Regex F : Type}

section Matching

variable (isMatch : Regex → Bytes → Bool)

/-- The two loops over the rules: the miner with the first rule that matches. -/
def findMiner (rulesRegexes : List (MinerId × List Regex)) (coinbaseAscii : Bytes) : Option MinerId :=
  (rulesRegexes.find? fun entry => entry.2.any (isMatch · coinbaseAscii)).map (·.1)

/-- `*counts.get_mut(&id).unwrap() += 1`. -/
def countBlock (counts : List (MinerId × Nat)) (id : MinerId) : Outcome (List (MinerId × Nat)) := do
  let count ← Outcome.unwrap (lookupEntry counts id)
  pure (insertEntry counts id (count + 1))

/-- The name of the miner with a matching rule, or of the unknown one. -/
def nameOf (rules : List (MinerId × Miner)) : Option MinerId → Outcome String
  | some id => Outcome.unwrap ((lookupEntry rules id).map (·.displayName))
  | none => .ok "UNKNOWN"

/-- The body of both loops over blocks, for a block and what `findMiner` found for it. -/
def creditBlock (recentAfter : Nat) (block : CoinbaseBlock) (found : Option MinerId) (w : Miners Regex F) :
    Outcome (Miners Regex F) := do
  let id := found.getD unknownId
  let mined ← Outcome.unwrap (w.blocksMinedByMiners id)
  let credited := { w with
    blocksMinedByMiners := mapInsert w.blocksMinedByMiners id (mined ++ [block.hash])
    blockMiners := mapInsert w.blockMiners block.hash id }
  if recentAfter ≤ block.timestamp then do
    let name ← nameOf w.rules found
    let counts ← countBlock w.recentBlocksMinedByMinersCounts id
    pure { credited with
      recentBlocksMinedByMinersCounts := counts
      recentBlocks := w.recentBlocks ++ [⟨block.hash, block.number, block.coinbaseAscii, id, name, block.timestamp⟩] }
  else pure credited

def creditBlocks (recentAfter : Nat) : List (CoinbaseBlock × Option MinerId) → Miners Regex F → Outcome (Miners Regex F)
  | [], w => .ok w
  | (block, found) :: rest, w => do
    let w ← w.creditBlock recentAfter block found
    creditBlocks recentAfter rest w

/-- The display name of a miner id: `rules[id]` for every id but that of the unknown miner. -/
def displayNameOf (rules : List (MinerId × Miner)) (id : MinerId) : Outcome String :=
  if id = unknownId then .ok "UNKNOWN" else Outcome.unwrap ((lookupEntry rules id).map (·.displayName))

/-- The loop over the counters that fills `recent_shares`. `share` is the quotient of two
numbers as `f64`. -/
def sharesOf (share : Nat → Nat → F) (rules : List (MinerId × Miner)) (recentBlocks : Nat) :
    List (MinerId × Nat) → Outcome (List (MinerId × String × F))
  | [] => .ok []
  | (id, mined) :: rest =>
    if mined ≠ 0 then do
      let displayName ← displayNameOf rules id
      let shares ← sharesOf share rules recentBlocks rest
      pure ((id, displayName, share mined recentBlocks) :: shares)
    else sharesOf share rules recentBlocks rest

def updateShares (share : Nat → Nat → F) (w : Miners Regex F) : Outcome (Miners Regex F) := do
  let shares ← sharesOf share w.rules w.recentBlocks.length w.recentBlocksMinedByMinersCounts
  pure { w with recentShares := shares }

/-- The first loop of `callback_chain_extended`. -/
def popLoop (p : Profile) (recentAfter : Nat) :
    List RecentBlock → List (MinerId × Nat) → Outcome (List RecentBlock × List (MinerId × Nat))
  | [], counts => .ok ([], counts)
  | block :: rest, counts =>
    if block.timestamp < recentAfter then do
      let count ← Outcome.unwrap (lookupEntry counts block.minerId)
      let count ← p.sub 64 count 1
      popLoop p recentAfter rest (insertEntry counts block.minerId count)
    else .ok (block :: rest, counts)

/-- The blocks of a batch with what the rules find in the raw coinbase scripts. -/
def arrivedBlocks (rulesRegexes : List (MinerId × List Regex)) (hashes : List Hash) (numbers timestamps : List Nat)
    (coinbaseAsciis : List Bytes) : List (CoinbaseBlock × Option MinerId) :=
  (((hashes.zip numbers).zip timestamps).zip coinbaseAsciis).map fun (((hash, number), timestamp), bytes) =>
    (⟨hash, number, timestamp, fromUtf8Lossy bytes⟩, findMiner isMatch rulesRegexes bytes)

/-- The blocks of a chain with what the rules find in the stored texts. -/
def storedBlocks (rulesRegexes : List (MinerId × List Regex)) (blocks : List CoinbaseBlock) :
    List (CoinbaseBlock × Option MinerId) :=
  blocks.map fun block => (block, findMiner isMatch rulesRegexes (asBytes block.coinbaseAscii))

def callbackChainExtended (p : Profile) (share : Nat → Nat → F) (hashes : List Hash) (numbers timestamps : List Nat)
    (coinbaseAsciis : List Bytes) (w : Miners Regex F) : Outcome (Miners Regex F) := do
  let lastTimestamp ← Outcome.unwrap timestamps.getLast?
  let recentAfter ← p.sub 64 lastTimestamp minerPercentageOverLastSeconds
  let (recentBlocks, counts) ← popLoop p recentAfter w.recentBlocks w.recentBlocksMinedByMinersCounts
  let w ← creditBlocks recentAfter (arrivedBlocks isMatch w.rulesRegexes hashes numbers timestamps coinbaseAsciis)
    { w with recentBlocks := recentBlocks, recentBlocksMinedByMinersCounts := counts }
  w.updateShares share

/-- The empty statistics of a rule set: the unknown miner and one entry for each rule. -/
def reset (w : Miners Regex F) : Miners Regex F :=
  { w with
    blocksMinedByMiners :=
      w.rules.foldl (fun map rule => mapInsert map rule.1 []) (mapInsert (fun _ => none) unknownId [])
    recentBlocksMinedByMinersCounts := w.rules.foldl (fun counts rule => insertEntry counts rule.1 0) [(unknownId, 0)]
    blockMiners := fun _ => none
    recentBlocks := [] }

/-- `now` is the clock, read for a chain without a downloaded block. -/
def lastTimestamp (now : Nat) (hashesAndAsciis : List CoinbaseBlock) : Nat :=
  (hashesAndAsciis.getLast?.map (·.timestamp)).getD now

def recalculateFullMinerStats (p : Profile) (share : Nat → Nat → F) (c : Chain) (now : Nat) (topHash : Option Hash)
    (w : Miners Regex F) : Outcome (Miners Regex F) :=
  match topHash with
  | none => .ok w.reset
  | some topHash => do
    let hashesAndAsciis ← c.getBlocksWithTimestampsAndCoinbaseAsciis topHash
    let recentAfter ← p.sub 64 (lastTimestamp now hashesAndAsciis) minerPercentageOverLastSeconds
    let w ← creditBlocks recentAfter (storedBlocks isMatch w.rulesRegexes hashesAndAsciis) w.reset
    w.updateShares share

def callbackAfterHeadersLoaded (p : Profile) (share : Nat → Nat → F) (c : Chain) (now : Nat) (w : Miners Regex F) :
    Outcome (Miners Regex F) := do
  let topHash ← c.getTopSyncedHeaderHash
  w.recalculateFullMinerStats isMatch p share c now topHash

def callbackChainReorg (p : Profile) (share : Nat → Nat → F) (c : Chain) (now : Nat) (topHash : Hash)
    (w : Miners Regex F) : Outcome (Miners Regex F) :=
  w.recalculateFullMinerStats isMatch p share c now (some topHash)

def callbackConfigUpdated (p : Profile) (share : Nat → Nat → F) (c : Chain) (now : Nat)
    (newRules : List (MinerId × Miner)) (newRegrets : List (MinerId × List Regex)) (w : Miners Regex F) :
    Outcome (Miners Regex F) := do
  let topHash ← c.getTopSyncedHeaderHash
  { w with rules := newRules, rulesRegexes := newRegrets }.recalculateFullMinerStats isMatch p share c now topHash

end Matching

/-- The share of a miner without recent blocks is `0.`. -/
def getMinerForBlockAndShare [Zero F] (share : Nat → Nat → F) (block : Hash) (r : Miners Regex F) :
    Outcome (Option (MinerId × String × F)) :=
  match r.blockMiners block with
  | none => .ok none
  | some minerId => do
    let minedRecently ← Outcome.unwrap (lookupEntry r.recentBlocksMinedByMinersCounts minerId)
    let displayName ← displayNameOf r.rules minerId
    let share := if r.recentBlocks.length ≠ 0 then share minedRecently r.recentBlocks.length else 0
    pure (some (minerId, displayName, share))

end Miners

end Bitlens

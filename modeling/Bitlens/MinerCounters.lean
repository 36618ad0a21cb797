import Bitlens.Miners
import Bitlens.GrownChain
import Bitlens.Lib.FrontDrop

namespace Bitlens
open Lib

namespace Miners

variable {Regex F : Type}

/-- The unknown miner or one with a rule. -/
def HasId (rules : List (MinerId × Miner)) (id : MinerId) : Prop :=
  id = unknownId ∨ (lookupEntry rules id).isSome

instance (rules : List (MinerId × Miner)) (id : MinerId) : Decidable (HasId rules id) :=
  inferInstanceAs (Decidable (_ ∨ _))

def countOf (recentBlocks : List RecentBlock) (id : MinerId) : Nat :=
  recentBlocks.countP fun block => block.minerId = id

/-- There is a counter for exactly the miners of the rules and the unknown one, and each is the
number of its recent blocks. -/
def Counted (rules : List (MinerId × Miner)) (recentBlocks : List RecentBlock) (counts : List (MinerId × Nat)) : Prop :=
  ∀ id, lookupEntry counts id = if HasId rules id then some (countOf recentBlocks id) else none

structure Consistent (w : Miners Regex F) : Prop where
  matched : ∀ entry ∈ w.rulesRegexes, (lookupEntry w.rules entry.1).isSome
  mined : ∀ id, HasId w.rules id → (w.blocksMinedByMiners id).isSome
  counted : Counted w.rules w.recentBlocks w.recentBlocksMinedByMinersCounts
  recent : ∀ block ∈ w.recentBlocks, HasId w.rules block.minerId
  miners : ∀ hash id, w.blockMiners hash = some id → HasId w.rules id

variable {rules : List (MinerId × Miner)} {recentBlocks : List RecentBlock} {counts : List (MinerId × Nat)}
  {w : Miners Regex F} {isMatch : Regex → Bytes → Bool} {recentAfter : Nat} {block : CoinbaseBlock}
  {found : Option MinerId} {share : Nat → Nat → F} {p : Profile}

/-- What the rules can find: the id of a rule, or nothing. -/
def Found (rules : List (MinerId × Miner)) (found : Option MinerId) : Prop :=
  ∀ id ∈ found, (lookupEntry rules id).isSome

theorem Found.hasId (valid : Found rules found) : HasId rules (found.getD unknownId) := by
  cases found with
  | none => exact Or.inl rfl
  | some id => exact Or.inr (valid id rfl)

theorem Consistent.findMiner (consistent : w.Consistent) (bytes : Bytes) :
    Found w.rules (Miners.findMiner isMatch w.rulesRegexes bytes) := by
  intro id atId
  obtain ⟨entry, first, same⟩ := Option.map_eq_some_iff.mp (Option.mem_def.mp atId)
  rw [← same]
  exact consistent.matched entry (List.mem_of_find?_eq_some first)

/-- The name that goes with what the rules found. -/
def nameFor (rules : List (MinerId × Miner)) (found : Option MinerId) : String :=
  match found with
  | some id => ((lookupEntry rules id).map (·.displayName)).getD ""
  | none => "UNKNOWN"

theorem nameOf_eq (valid : Found rules found) : nameOf rules found = .ok (nameFor rules found) := by
  cases found with
  | none => rfl
  | some id =>
    obtain ⟨miner, atId⟩ := Option.isSome_iff_exists.mp (valid id rfl)
    simp [nameOf, nameFor, atId]

def recentOf (rules : List (MinerId × Miner)) (block : CoinbaseBlock) (found : Option MinerId) : RecentBlock :=
  ⟨block.hash, block.number, block.coinbaseAscii, found.getD unknownId, nameFor rules found, block.timestamp⟩

theorem Counted.push (counted : Counted rules recentBlocks counts) (entry : RecentBlock)
    (known : HasId rules entry.minerId) :
    ∃ counts', countBlock counts entry.minerId = .ok counts' ∧ Counted rules (recentBlocks ++ [entry]) counts' := by
  refine ⟨insertEntry counts entry.minerId (countOf recentBlocks entry.minerId + 1), ?_, fun id => ?_⟩
  · rw [countBlock, counted, if_pos known]
    rfl
  · rw [lookupEntry_insertEntry, counted id]
    by_cases same : id = entry.minerId
    · simp [same, known, countOf, List.countP_append]
    · simp [same, countOf, List.countP_append, Ne.symm same]

theorem Counted.pop {entry : RecentBlock} (counted : Counted rules (entry :: recentBlocks) counts)
    (known : HasId rules entry.minerId) :
    lookupEntry counts entry.minerId = some (countOf recentBlocks entry.minerId + 1) ∧
      Counted rules recentBlocks (insertEntry counts entry.minerId (countOf recentBlocks entry.minerId)) := by
  constructor
  · rw [counted, if_pos known]
    simp [countOf]
  · intro id
    rw [lookupEntry_insertEntry, counted id]
    by_cases same : id = entry.minerId
    · simp [same, known]
    · simp [same, countOf, Ne.symm same]

/-- The first loop of `callback_chain_extended` drops the old blocks at the front and keeps the
counters in step, without an underflow. -/
theorem Counted.popLoop (counted : Counted rules recentBlocks counts)
    (known : ∀ entry ∈ recentBlocks, HasId rules entry.minerId) :
    ∃ counts', popLoop p recentAfter recentBlocks counts =
        .ok (recentBlocks.dropWhile fun entry => entry.timestamp < recentAfter, counts') ∧
      Counted rules (recentBlocks.dropWhile fun entry => entry.timestamp < recentAfter) counts' := by
  induction recentBlocks generalizing counts with
  | nil => exact ⟨counts, rfl, counted⟩
  | cons entry recentBlocks ih =>
    by_cases old : entry.timestamp < recentAfter
    · obtain ⟨count, popped⟩ := counted.pop (known entry List.mem_cons_self)
      obtain ⟨counts', rest, after⟩ := ih popped fun other member => known other (List.mem_cons_of_mem _ member)
      refine ⟨counts', ?_, by simpa [old] using after⟩
      rw [Miners.popLoop, if_pos old, count, Outcome.unwrap_some, Outcome.ok_bind,
        Profile.sub_of_le (Nat.le_add_left 1 _), Outcome.ok_bind, Nat.add_sub_cancel, rest]
      simp [old]
    · refine ⟨counts, ?_, by simpa [old] using counted⟩
      simp [Miners.popLoop, old]

/-- What the body of both loops over blocks does. -/
structure Credits (recentAfter : Nat) (block : CoinbaseBlock) (found : Option MinerId) (w w' : Miners Regex F) :
    Prop where
  rules : w'.rules = w.rules
  rulesRegexes : w'.rulesRegexes = w.rulesRegexes
  mined : ∀ id, w'.blocksMinedByMiners id =
    if id = found.getD unknownId then (w.blocksMinedByMiners id).map (· ++ [block.hash]) else w.blocksMinedByMiners id
  miners : w'.blockMiners = mapInsert w.blockMiners block.hash (found.getD unknownId)
  recent : w'.recentBlocks =
    w.recentBlocks ++ if recentAfter ≤ block.timestamp then [recentOf w.rules block found] else []

theorem Consistent.creditBlock (consistent : w.Consistent) (recentAfter : Nat) (block : CoinbaseBlock)
    (valid : Found w.rules found) :
    ∃ w', w.creditBlock recentAfter block found = .ok w' ∧ w'.Consistent ∧ Credits recentAfter block found w w' := by
  have known := valid.hasId
  obtain ⟨mined, atId⟩ := Option.isSome_iff_exists.mp (consistent.mined _ known)
  have entries : ∀ id, mapInsert w.blocksMinedByMiners (found.getD unknownId) (mined ++ [block.hash]) id =
      if id = found.getD unknownId then (w.blocksMinedByMiners id).map (· ++ [block.hash])
      else w.blocksMinedByMiners id := by
    intro id
    by_cases same : id = found.getD unknownId <;> simp [mapInsert, same, atId]
  have minedBy : ∀ id, HasId w.rules id →
      (mapInsert w.blocksMinedByMiners (found.getD unknownId) (mined ++ [block.hash]) id).isSome := fun id has =>
    mapInsert_isSome_of (Or.inr (consistent.mined id has))
  have minedIn : ∀ hash id, mapInsert w.blockMiners block.hash (found.getD unknownId) hash = some id →
      HasId w.rules id := by
    intro hash id atHash
    rcases mapInsert_origin atHash with ⟨_, same⟩ | before
    · exact same ▸ known
    · exact consistent.miners hash id before
  rw [Miners.creditBlock, atId, Outcome.unwrap_some, Outcome.ok_bind]
  by_cases recent : recentAfter ≤ block.timestamp
  · obtain ⟨counts, counter, counted⟩ := consistent.counted.push (recentOf w.rules block found) known
    simp only [recentOf] at counter
    rw [if_pos recent, nameOf_eq valid, Outcome.ok_bind, counter]
    refine ⟨_, rfl, ⟨consistent.matched, minedBy, counted, ?_, minedIn⟩, rfl, rfl, entries, rfl,
      by simp [recent, recentOf]⟩
    intro entry member
    rcases List.mem_append.mp member with before | last
    · exact consistent.recent entry before
    · rw [List.mem_singleton.mp last]
      exact known
  · rw [if_neg recent]
    exact ⟨_, rfl, ⟨consistent.matched, minedBy, consistent.counted, consistent.recent, minedIn⟩,
      rfl, rfl, entries, rfl, by simp [recent]⟩

/-- What a loop over blocks does. -/
structure CreditsAll (recentAfter : Nat) (blocks : List (CoinbaseBlock × Option MinerId)) (w w' : Miners Regex F) :
    Prop where
  rules : w'.rules = w.rules
  rulesRegexes : w'.rulesRegexes = w.rulesRegexes
  mined : ∀ id, w'.blocksMinedByMiners id = (w.blocksMinedByMiners id).map
    (· ++ (blocks.filter fun entry => id = entry.2.getD unknownId).map (·.1.hash))
  miners : w'.blockMiners =
    blocks.foldl (fun map entry => mapInsert map entry.1.hash (entry.2.getD unknownId)) w.blockMiners
  recent : w'.recentBlocks = w.recentBlocks ++
    (blocks.filter fun entry => recentAfter ≤ entry.1.timestamp).map fun entry => recentOf w.rules entry.1 entry.2

theorem Consistent.creditBlocks {blocks : List (CoinbaseBlock × Option MinerId)} (consistent : w.Consistent)
    (recentAfter : Nat) (valid : ∀ entry ∈ blocks, Found w.rules entry.2) :
    ∃ w', w.creditBlocks recentAfter blocks = .ok w' ∧ w'.Consistent ∧ CreditsAll recentAfter blocks w w' := by
  induction blocks generalizing w with
  | nil => exact ⟨w, rfl, consistent, rfl, rfl, by simp, rfl, by simp⟩
  | cons entry blocks ih =>
    obtain ⟨middle, first, inMiddle, credits⟩ :=
      consistent.creditBlock recentAfter entry.1 (valid entry List.mem_cons_self)
    obtain ⟨w', rest, atEnd, all⟩ := ih inMiddle fun other member => by
      rw [credits.rules]
      exact valid other (List.mem_cons_of_mem _ member)
    refine ⟨w', ?_, atEnd, all.rules.trans credits.rules, all.rulesRegexes.trans credits.rulesRegexes, ?_, ?_, ?_⟩
    · rw [Miners.creditBlocks, first, Outcome.ok_bind, rest]
    · intro id
      rw [all.mined, credits.mined]
      by_cases same : id = entry.2.getD unknownId
      · cases w.blocksMinedByMiners id <;> simp [same]
      · simp [same]
    · rw [all.miners, credits.miners]
      rfl
    · rw [all.recent, credits.recent, credits.rules]
      by_cases recent : recentAfter ≤ entry.1.timestamp <;> simp [recent]

theorem lookup_resetCounts {id : MinerId} :
    lookupEntry (rules.foldl (fun counts rule => insertEntry counts rule.1 0) counts) id =
      if (lookupEntry rules id).isSome then some 0 else lookupEntry counts id := by
  induction rules generalizing counts with
  | nil => simp
  | cons rule rules ih =>
    rw [List.foldl_cons, ih, lookupEntry_insertEntry, lookupEntry_cons]
    by_cases same : rule.1 = id <;> by_cases later : (lookupEntry rules id).isSome <;> simp [same, later, Ne.symm]

theorem resetMined {id : MinerId} {map : MinerId → Option (List Hash)} (has : (lookupEntry rules id).isSome) :
    (rules.foldl (fun map rule => mapInsert map rule.1 []) map id).isSome := by
  obtain ⟨rule, member, same⟩ := List.mem_map.mp (isSome_lookupEntry_iff.mp has)
  rw [← same]
  exact foldl_mapInsert_isSome member

theorem consistent_reset (matched : ∀ entry ∈ w.rulesRegexes, (lookupEntry w.rules entry.1).isSome) :
    w.reset.Consistent := by
  refine ⟨matched, ?_, ?_, by simp [reset], by simp [reset]⟩
  · rintro id (unknown | ruled)
    · exact foldl_mapInsert_isSome_of (by simp [unknown])
    · exact resetMined ruled
  · intro id
    have zero : countOf [] id = 0 := rfl
    simp only [reset, lookup_resetCounts, lookupEntry_cons, lookupEntry_nil, HasId, zero]
    by_cases unknown : id = unknownId <;> by_cases ruled : (lookupEntry w.rules id).isSome <;>
      simp [unknown, ruled, Ne.symm]

theorem displayNameOf_ok {id : MinerId} (has : HasId rules id) : ∃ name, displayNameOf rules id = .ok name := by
  unfold displayNameOf
  by_cases unknown : id = unknownId
  · exact ⟨_, by rw [if_pos unknown]⟩
  · obtain ⟨miner, atId⟩ := Option.isSome_iff_exists.mp (has.resolve_left unknown)
    exact ⟨miner.displayName, by simp [unknown, atId]⟩

theorem sharesOf_ok (share : Nat → Nat → F) (n : Nat) {entries : List (MinerId × Nat)}
    (has : ∀ entry ∈ entries, HasId rules entry.1) :
    ∃ shares, sharesOf share rules n entries = .ok shares := by
  induction entries with
  | nil => exact ⟨[], rfl⟩
  | cons entry entries ih =>
    obtain ⟨shares, rest⟩ := ih fun other member => has other (List.mem_cons_of_mem _ member)
    obtain ⟨name, named⟩ := displayNameOf_ok (has entry List.mem_cons_self)
    rw [sharesOf]
    split
    · exact ⟨_, by rw [named, Outcome.ok_bind, rest]; rfl⟩
    · exact ⟨shares, rest⟩

/-- The shares are made of the counters and touch nothing else. -/
theorem Consistent.updateShares (consistent : w.Consistent) (share : Nat → Nat → F) :
    ∃ shares, w.updateShares share = .ok { w with recentShares := shares } ∧
      { w with recentShares := shares }.Consistent := by
  have has : ∀ entry ∈ w.recentBlocksMinedByMinersCounts, HasId w.rules entry.1 := by
    intro entry member
    by_contra none
    have present := isSome_lookupEntry_iff.mpr (List.mem_map_of_mem (f := (·.1)) member)
    rw [consistent.counted, if_neg none] at present
    cases present
  obtain ⟨shares, made⟩ := sharesOf_ok share w.recentBlocks.length has
  refine ⟨shares, ?_, consistent.matched, consistent.mined, consistent.counted, consistent.recent, consistent.miners⟩
  rw [Miners.updateShares, made]
  rfl

/-- The rules and what `compile_regexes` made of them, in any order. -/
def Compiled (newRegex : String → Outcome Regex) (rules : List (MinerId × Miner))
    (rulesRegexes : List (MinerId × List Regex)) : Prop :=
  ∃ entries, compileRegexes newRegex rules = .ok entries ∧ rulesRegexes.Perm entries

theorem compileRegexes_keys {newRegex : String → Outcome Regex} {entries : List (MinerId × List Regex)}
    (compiled : compileRegexes newRegex rules = .ok entries) : entries.map (·.1) = rules.map (·.1) := by
  induction rules generalizing entries with
  | nil =>
    cases compiled
    rfl
  | cons rule rules ih =>
    obtain ⟨regexes, _, compiled⟩ := Outcome.bind_eq_ok.mp compiled
    obtain ⟨rest, atRest, compiled⟩ := Outcome.bind_eq_ok.mp compiled
    cases compiled
    simp [ih atRest]

theorem Compiled.matched {newRegex : String → Outcome Regex} {rulesRegexes : List (MinerId × List Regex)}
    (compiled : Compiled newRegex rules rulesRegexes) :
    ∀ entry ∈ rulesRegexes, (lookupEntry rules entry.1).isSome := by
  obtain ⟨entries, made, order⟩ := compiled
  intro entry member
  rw [isSome_lookupEntry_iff, ← compileRegexes_keys made]
  exact List.mem_map_of_mem (order.subset member)

/-- A chain whose known headers lead back to the one without a parent, with timestamps of at
least two weeks. -/
structure Walkable (c : Chain) : Prop where
  wellFormed : c.WellFormed
  anchored : c.Anchored
  dated : ∀ hash b, c.knownHeaders hash = some b → minerPercentageOverLastSeconds ≤ b.header.timestamp.toNat

variable {c : Chain} {now : Nat}

theorem Walkable.ancestry (walkable : Walkable c) {hash : Hash} (known : c.Known hash) :
    ∃ blocks, c.Ancestry hash blocks := by
  obtain ⟨b, stored⟩ := Option.isSome_iff_exists.mp known
  obtain ⟨blocks, ancestry, _⟩ := walkable.wellFormed.exists_ancestry walkable.anchored stored
  exact ⟨blocks, ancestry⟩

/-- The synced header that the callbacks start from is a known one. -/
theorem Walkable.getTopSyncedHeaderHash (walkable : Walkable c) :
    ∃ topHash, c.getTopSyncedHeaderHash = .ok topHash ∧ ∀ hash ∈ topHash, c.Known hash := by
  obtain ⟨blocks, ancestry⟩ := walkable.ancestry walkable.wellFormed.top.known
  refine ⟨_, ancestry.getTopSyncedHeaderHash, fun hash atHash => ?_⟩
  obtain ⟨b, fetched, same⟩ := Option.map_eq_some_iff.mp (Option.mem_def.mp atHash)
  rw [← same, Chain.Known, ancestry.stored_of_mem (List.mem_of_find?_eq_some fetched)]
  rfl

section Blocks

variable (isMatch) (share)

theorem Consistent.storedBlocks (consistent : w.Consistent) (blocks : List CoinbaseBlock) :
    ∀ entry ∈ storedBlocks isMatch w.rulesRegexes blocks, Found w.rules entry.2 := by
  intro entry member
  obtain ⟨block, _, rfl⟩ := List.mem_map.mp member
  exact consistent.findMiner _

theorem Consistent.arrivedBlocks (consistent : w.Consistent) (hashes : List Hash) (numbers timestamps : List Nat)
    (coinbaseAsciis : List Bytes) :
    ∀ entry ∈ arrivedBlocks isMatch w.rulesRegexes hashes numbers timestamps coinbaseAsciis, Found w.rules entry.2 := by
  intro entry member
  obtain ⟨⟨⟨⟨hash, number⟩, timestamp⟩, bytes⟩, _, rfl⟩ := List.mem_map.mp member
  exact consistent.findMiner _

/-- The statistics of a branch that is walked from its newest header. -/
theorem recalculate_ok {hash : Hash} {blocks : List BlockHeaderWithNumber} (ancestry : c.Ancestry hash blocks)
    (matched : ∀ entry ∈ w.rulesRegexes, (lookupEntry w.rules entry.1).isSome)
    (dated : minerPercentageOverLastSeconds ≤ lastTimestamp now (blocks.filterMap Chain.coinbaseBlock).reverse) :
    ∃ w', w.recalculateFullMinerStats isMatch p share c now (some hash) = .ok w' ∧ w'.Consistent ∧
      CreditsAll (lastTimestamp now (blocks.filterMap Chain.coinbaseBlock).reverse - minerPercentageOverLastSeconds)
        (Miners.storedBlocks isMatch w.rulesRegexes (blocks.filterMap Chain.coinbaseBlock).reverse) w.reset w' := by
  have fresh := consistent_reset matched
  obtain ⟨credited, atEnd, consistent, credits⟩ := fresh.creditBlocks
    (lastTimestamp now (blocks.filterMap Chain.coinbaseBlock).reverse - minerPercentageOverLastSeconds)
    (fresh.storedBlocks isMatch (blocks.filterMap Chain.coinbaseBlock).reverse)
  obtain ⟨shares, shared, kept⟩ := consistent.updateShares share
  refine ⟨_, ?_, kept, credits.rules, credits.rulesRegexes, credits.mined, credits.miners, credits.recent⟩
  rw [recalculateFullMinerStats, ancestry.getBlocks, Outcome.ok_bind, Profile.sub_of_le dated, Outcome.ok_bind]
  exact (congrArg (· >>= updateShares share) atEnd).trans shared

/-- The blocks of a batch on top of what is still recent. -/
theorem Consistent.callbackChainExtended (consistent : w.Consistent) {timestamps : List Nat} {last : Nat}
    (ends : timestamps.getLast? = some last) (dated : minerPercentageOverLastSeconds ≤ last) (hashes : List Hash)
    (numbers : List Nat) (coinbaseAsciis : List Bytes) :
    ∃ w', w.callbackChainExtended isMatch p share hashes numbers timestamps coinbaseAsciis = .ok w' ∧ w'.Consistent ∧
      CreditsAll (last - minerPercentageOverLastSeconds)
        (Miners.arrivedBlocks isMatch w.rulesRegexes hashes numbers timestamps coinbaseAsciis)
        { w with recentBlocks := w.recentBlocks.dropWhile fun entry =>
            entry.timestamp < last - minerPercentageOverLastSeconds } w' := by
  obtain ⟨counts, popped, counted⟩ := consistent.counted.popLoop (p := p) consistent.recent
  have trimmed : ({ w with
      recentBlocks := w.recentBlocks.dropWhile fun entry => entry.timestamp < last - minerPercentageOverLastSeconds
      recentBlocksMinedByMinersCounts := counts } : Miners Regex F).Consistent :=
    ⟨consistent.matched, consistent.mined, counted, fun entry member =>
      consistent.recent entry ((List.dropWhile_sublist _).subset member), consistent.miners⟩
  obtain ⟨credited, atEnd, after, credits⟩ := trimmed.creditBlocks (last - minerPercentageOverLastSeconds)
    (trimmed.arrivedBlocks isMatch hashes numbers timestamps coinbaseAsciis)
  obtain ⟨shares, shared, kept⟩ := after.updateShares share
  refine ⟨_, ?_, kept, credits.rules, credits.rulesRegexes, credits.mined, credits.miners, credits.recent⟩
  rw [Miners.callbackChainExtended, ends, Outcome.unwrap_some, Outcome.ok_bind, Profile.sub_of_le dated,
    Outcome.ok_bind, popped, Outcome.ok_bind]
  exact (congrArg (· >>= Miners.updateShares share) atEnd).trans shared

theorem Walkable.recalculate (walkable : Walkable c) {topHash : Option Hash} (known : ∀ hash ∈ topHash, c.Known hash)
    (clock : minerPercentageOverLastSeconds ≤ now)
    (matched : ∀ entry ∈ w.rulesRegexes, (lookupEntry w.rules entry.1).isSome) :
    ∃ w', w.recalculateFullMinerStats isMatch p share c now topHash = .ok w' ∧ w'.Consistent := by
  cases topHash with
  | none => exact ⟨w.reset, rfl, consistent_reset matched⟩
  | some topHash =>
    obtain ⟨blocks, ancestry⟩ := walkable.ancestry (known topHash rfl)
    have dated : minerPercentageOverLastSeconds ≤ lastTimestamp now (blocks.filterMap Chain.coinbaseBlock).reverse := by
      unfold lastTimestamp
      cases last : (blocks.filterMap Chain.coinbaseBlock).reverse.getLast? with
      | none => exact clock
      | some block =>
        have member := List.mem_reverse.mp (List.mem_of_getLast? last)
        obtain ⟨b, inBlocks, made⟩ := List.mem_filterMap.mp member
        obtain ⟨text, _, rfl⟩ := Option.map_eq_some_iff.mp made
        exact walkable.dated _ b (ancestry.stored_of_mem inBlocks)
    obtain ⟨w', result, consistent, -⟩ := recalculate_ok isMatch share ancestry matched dated
    exact ⟨w', result, consistent⟩

end Blocks

/-! Runs of the callbacks. -/

inductive MinerCall (Regex : Type)
  | headersLoaded (c : Chain) (now : Nat)
  | chainExtended (hashes : List Hash) (numbers timestamps : List Nat) (coinbaseAsciis : List Bytes)
  | chainReorg (c : Chain) (now : Nat) (topHash : Hash)
  | configUpdated (c : Chain) (now : Nat) (newRules : List (MinerId × Miner)) (newRegrets : List (MinerId × List Regex))

namespace MinerCall

variable (isMatch : Regex → Bytes → Bool) (p : Profile) (share : Nat → Nat → F) (newRegex : String → Outcome Regex)

def apply (w : Miners Regex F) : MinerCall Regex → Outcome (Miners Regex F)
  | headersLoaded c now => w.callbackAfterHeadersLoaded isMatch p share c now
  | chainExtended hashes numbers timestamps coinbaseAsciis =>
    w.callbackChainExtended isMatch p share hashes numbers timestamps coinbaseAsciis
  | chainReorg c now topHash => w.callbackChainReorg isMatch p share c now topHash
  | configUpdated c now newRules newRegrets => w.callbackConfigUpdated isMatch p share c now newRules newRegrets

def applyAll : List (MinerCall Regex) → Miners Regex F → Outcome (Miners Regex F)
  | [], w => .ok w
  | call :: calls, w => do
    let w ← call.apply isMatch p share w
    applyAll calls w

/-- What the callers pass: known headers of a chain, blocks with timestamps of at least two weeks,
and the compiled form of new rules. -/
def Valid : MinerCall Regex → Prop
  | headersLoaded c now => Walkable c ∧ minerPercentageOverLastSeconds ≤ now
  | chainExtended _ _ timestamps _ => timestamps ≠ [] ∧ ∀ t ∈ timestamps, minerPercentageOverLastSeconds ≤ t
  | chainReorg c now topHash => Walkable c ∧ c.Known topHash ∧ minerPercentageOverLastSeconds ≤ now
  | configUpdated c now newRules newRegrets =>
    Walkable c ∧ minerPercentageOverLastSeconds ≤ now ∧ Compiled newRegex newRules newRegrets

variable {newRegex}

theorem Valid.headersLoaded (valid : (MinerCall.headersLoaded c now : MinerCall Regex).Valid newRegex)
    (matched : ∀ entry ∈ w.rulesRegexes, (lookupEntry w.rules entry.1).isSome) :
    ∃ w', (MinerCall.headersLoaded c now).apply isMatch p share w = .ok w' ∧ w'.Consistent := by
  obtain ⟨walkable, clock⟩ := valid
  obtain ⟨topHash, synced, known⟩ := walkable.getTopSyncedHeaderHash
  obtain ⟨w', result, consistent⟩ := walkable.recalculate isMatch share known clock matched
  refine ⟨w', ?_, consistent⟩
  rw [apply, callbackAfterHeadersLoaded, synced, Outcome.ok_bind, result]

/-- Every callback keeps the invariant and does not panic. -/
theorem Valid.apply {call : MinerCall Regex} (valid : call.Valid newRegex) (consistent : w.Consistent) :
    ∃ w', call.apply isMatch p share w = .ok w' ∧ w'.Consistent := by
  cases call with
  | headersLoaded c now => exact valid.headersLoaded isMatch p share consistent.matched
  | chainExtended hashes numbers timestamps coinbaseAsciis =>
    obtain ⟨some, dated⟩ := valid
    obtain ⟨w', result, after, -⟩ := consistent.callbackChainExtended isMatch share
      (List.getLast?_eq_some_getLast some) (dated _ (List.getLast_mem some)) hashes numbers coinbaseAsciis
    exact ⟨w', result, after⟩
  | chainReorg c now topHash =>
    obtain ⟨walkable, known, clock⟩ := valid
    exact walkable.recalculate isMatch share (fun hash atHash => Option.some.inj atHash ▸ known) clock
      consistent.matched
  | configUpdated c now newRules newRegrets =>
    obtain ⟨walkable, clock, compiled⟩ := valid
    obtain ⟨topHash, synced, known⟩ := walkable.getTopSyncedHeaderHash
    obtain ⟨w', result, after⟩ := walkable.recalculate (w := { w with rules := newRules, rulesRegexes := newRegrets })
      isMatch share known clock compiled.matched
    refine ⟨w', ?_, after⟩
    rw [MinerCall.apply, callbackConfigUpdated, synced, Outcome.ok_bind, result]

theorem applyAll_ok {calls : List (MinerCall Regex)} (valid : ∀ call ∈ calls, call.Valid newRegex)
    (consistent : w.Consistent) : ∃ w', applyAll isMatch p share calls w = .ok w' ∧ w'.Consistent := by
  induction calls generalizing w with
  | nil => exact ⟨w, rfl, consistent⟩
  | cons call calls ih =>
    obtain ⟨middle, first, inMiddle⟩ := (valid call List.mem_cons_self).apply isMatch p share consistent
    obtain ⟨w', rest, atEnd⟩ := ih (fun other member => valid other (List.mem_cons_of_mem _ member)) inMiddle
    exact ⟨w', by rw [applyAll, first, Outcome.ok_bind, rest], atEnd⟩

end MinerCall

theorem Consistent.getMinerForBlockAndShare [Zero F] (consistent : w.Consistent) (block : Hash) :
    ∃ answer, w.getMinerForBlockAndShare share block = .ok answer := by
  unfold Miners.getMinerForBlockAndShare
  cases miner : w.blockMiners block with
  | none => exact ⟨none, rfl⟩
  | some minerId =>
    have known := consistent.miners block minerId miner
    obtain ⟨name, named⟩ := displayNameOf_ok known
    simp [consistent.counted minerId, known, named]

/-- After the headers are loaded no sequence of callbacks panics, and in every state the counters
are those of the recent blocks. -/
theorem callbacks_consistent [Zero F] (newRegex : String → Outcome Regex) {calls : List (MinerCall Regex)}
    (compiled : Compiled newRegex w.rules w.rulesRegexes)
    (valid : ∀ call ∈ .headersLoaded c now :: calls, call.Valid newRegex) :
    ∃ w', MinerCall.applyAll isMatch p share (.headersLoaded c now :: calls) w = .ok w' ∧ w'.Consistent ∧
      ∀ block, ∃ answer, w'.getMinerForBlockAndShare share block = .ok answer := by
  obtain ⟨loaded, first, consistent⟩ := (valid _ List.mem_cons_self).headersLoaded isMatch p share
    compiled.matched
  obtain ⟨w', rest, after⟩ := MinerCall.applyAll_ok isMatch p share
    (fun call member => valid call (List.mem_cons_of_mem _ member)) consistent
  exact ⟨w', by rw [MinerCall.applyAll, first, Outcome.ok_bind, rest], after, after.getMinerForBlockAndShare⟩

/-- A regex engine for words without special characters, which ignores their case. -/
def wordRegex (regex : String) : Outcome Bytes :=
  .ok ((asBytes regex).drop 4)

def wordMatch (word text : Bytes) : Bool :=
  decide (word <:+: text.map fun b => if 65 ≤ b ∧ b ≤ 90 then b + 32 else b)

/-- The default rules. -/
def binanceMiners : Miners Bytes ℚ where
  rules := [("binance", ⟨"Binance", none, ["binance"]⟩)]
  rulesRegexes := [("binance", [asBytes "binance"])]
  blocksMinedByMiners := fun _ => none
  recentBlocksMinedByMinersCounts := []
  blockMiners := fun _ => none
  recentBlocks := []
  recentShares := []

theorem walkable_default : Walkable Chain.default := by
  refine ⟨Chain.default_wellFormed, fun hash b stored => ?_, fun hash b stored => ?_⟩ <;>
    rw [(Chain.default_known stored).2]
  · decide
  · decide

theorem callbacks_consistent_binance :
    ∃ w', MinerCall.applyAll wordMatch .dev (fun a b => (a : ℚ) / b)
        [.headersLoaded Chain.default 1700000000,
          .chainExtended [ByteArr.fill 32 1] [1] [1231469665] [asBytes "/Binance/"]] binanceMiners = .ok w' ∧
      w'.Consistent ∧
      ∀ block, ∃ answer, w'.getMinerForBlockAndShare (fun a b => (a : ℚ) / b) block = .ok answer := by
  refine callbacks_consistent wordRegex ⟨_, rfl, List.Perm.refl _⟩ fun call member => ?_
  rcases List.mem_cons.mp member with rfl | later
  · exact ⟨walkable_default, by decide⟩
  · rw [List.mem_singleton.mp later]
    exact ⟨List.cons_ne_nil _ _, by simp [minerPercentageOverLastSeconds]⟩

end Miners

end Bitlens

import Mathlib.Data.Finset.Basic
import Bitlens.Packets
import Bitlens.Text
import Bitlens.Lib.Forest
import Bitlens.Lib.Map

namespace Bitlens
open Lib

structure BlockHeaderWithNumber where
  header : BlockHeaderOwned
  number : Nat
  fetchedFull : Bool
  totalWork : Nat
  coinbaseAscii : Option String
  deriving DecidableEq

/-- The header tree and the two indices of its best chain. A `HashMap` is the
function it represents. -/
structure Chain where
  topHeader : BlockHeaderWithNumber
  knownHeaders : Hash → Option BlockHeaderWithNumber
  numberToHash : Nat → Option Hash
  mostWorkChain : Finset Hash

structure HeaderApplicationResult where
  removedBlocks : List (Hash × Nat)
  addedBlocks : List (Hash × Nat)
  deriving DecidableEq

namespace Chain

/-- The loop of `get_ancestor`; the heights fall, so the header's own number
bounds it. -/
def getAncestorLoop (c : Chain) (height : Nat) : Nat → BlockHeaderWithNumber → Outcome (Option BlockHeaderWithNumber)
  | 0, _ => .fault
  | fuel + 1, top =>
    if top.number > height then
      match c.knownHeaders top.header.parent with
      | some next => c.getAncestorLoop height fuel next
      | none => .ok none
    else .ok (some top)

def getAncestor (c : Chain) (header : BlockHeaderWithNumber) (height : Nat) : Outcome (Option BlockHeaderWithNumber) :=
  c.getAncestorLoop height (header.number + 1) header

def getNextBitsRequired (p : Profile) (c : Chain) (header : BlockHeaderWithNumber) : Outcome UInt32 :=
  if (header.number + 1) % difficultyAdjustmentInterval ≠ 0 then .ok header.header.bits
  else do
    let firstHeight ← p.sub 64 header.number (difficultyAdjustmentInterval - 1)
    let first ← c.getAncestor header firstHeight
    let firstHeader ← Outcome.unwrap first
    calculateNextWorkRequired p header.header.timestamp firstHeader.header.timestamp header.header.bits

def updateMostWorkChain (c : Chain) (result : HeaderApplicationResult) : Chain :=
  let kept := result.removedBlocks.foldl (fun set entry => set.erase entry.1) c.mostWorkChain
  { c with
    mostWorkChain := result.addedBlocks.foldl (fun set entry => insert entry.1 set) kept
    numberToHash := result.addedBlocks.foldl (fun map entry => mapInsert map entry.2 entry.1) c.numberToHash }

/-- The checks of `validate_and_apply_header_inner` and the record it builds:
`ok none` for a header that is already known. -/
def newHeader (p : Profile) (c : Chain) (header : BlockHeaderOwned) : Outcome (Option BlockHeaderWithNumber) :=
  if (c.knownHeaders header.hash).isSome then .ok none
  else do
    let parent ← Outcome.orErr (c.knownHeaders header.parent)
    let expectedBits ← c.getNextBitsRequired p parent
    Outcome.ensure (expectedBits = header.bits)
    let work ← getWork header.bits
    let newTotalWork ← u256Add parent.totalWork work
    pure (some ⟨header, parent.number + 1, false, newTotalWork, none⟩)

/-- First loop of the fork branch: walk down the old chain to the parent's
height. -/
def alignOld (p : Profile) (c : Chain) (parentNumber : Nat) :
    Nat → Hash → Nat → List (Hash × Nat) → Outcome (Hash × Nat × List (Hash × Nat))
  | 0, _, _, _ => .fault
  | fuel + 1, last, lastNumber, visitedOld => do
    let header ← Outcome.unwrap (c.knownHeaders last)
    if header.number = parentNumber then pure (last, lastNumber, visitedOld)
    else
      let lastNumber ← p.sub 64 lastNumber 1
      c.alignOld p parentNumber fuel header.header.parent lastNumber
        (visitedOld ++ [(header.header.hash, header.number)])

/-- Second loop of the fork branch: step back on both sides until they meet. -/
def stepBack (p : Profile) (c : Chain) :
    Nat → Hash → Nat → Hash → Nat → List (Hash × Nat) → List (Hash × Nat) →
      Outcome (List (Hash × Nat) × List (Hash × Nat))
  | 0, _, _, _, _, _, _ => .fault
  | fuel + 1, fromNewHash, fromNewNumber, fromOldHash, fromOldNumber, visitedNew, visitedOld =>
    if fromNewHash = fromOldHash then .ok (visitedNew, visitedOld)
    else do
      let old ← Outcome.unwrap (c.knownHeaders fromOldHash)
      let nextOldNumber ← p.sub 64 fromOldNumber 1
      let new ← Outcome.unwrap (c.knownHeaders fromNewHash)
      let nextNewNumber ← p.sub 64 fromNewNumber 1
      c.stepBack p fuel new.header.parent nextNewNumber old.header.parent nextOldNumber
        (visitedNew ++ [(fromNewHash, fromNewNumber)]) (visitedOld ++ [(fromOldHash, fromOldNumber)])

/-- The fork branch of `validate_and_apply_header_inner`: the blocks visited on
the new side and on the old side. The new side starts at the parent's hash but at
the new header's own number. -/
def forkWalk (p : Profile) (c : Chain) (new : BlockHeaderWithNumber) (parentNumber : Nat) :
    Outcome (List (Hash × Nat) × List (Hash × Nat)) := do
  let (fromOldHash, fromOldNumber, visitedOld) ←
    c.alignOld p parentNumber (c.topHeader.number + 2) c.topHeader.header.hash c.topHeader.number
      [(c.topHeader.header.hash, c.topHeader.number)]
  c.stepBack p (parentNumber + 2) new.header.parent new.number fromOldHash fromOldNumber
    [(new.header.hash, new.number)] visitedOld

def calculateDownloadedBlocksLoop (c : Chain) : Nat → BlockHeaderWithNumber → Outcome Nat
  | 0, _ => .fault
  | fuel + 1, last =>
    if last.fetchedFull then .ok (last.number + 1)
    else if last.number = 0 then .ok 0
    else do
      let parent ← Outcome.unwrap (c.knownHeaders last.header.parent)
      c.calculateDownloadedBlocksLoop fuel parent

def calculateDownloadedBlocks (c : Chain) : Outcome Nat :=
  c.calculateDownloadedBlocksLoop (c.topHeader.number + 1) c.topHeader

def generateTopWorkChainLoop (c : Chain) :
    Nat → BlockHeaderWithNumber → Finset Hash → (Nat → Option Hash) → Outcome (Finset Hash × (Nat → Option Hash))
  | 0, _, _, _ => .fault
  | fuel + 1, last, hashset, numberToHash =>
    let hashset := insert last.header.hash hashset
    let numberToHash := mapInsert numberToHash last.number last.header.hash
    if last.number = 0 then .ok (hashset, numberToHash)
    else do
      let parent ← Outcome.unwrap (c.knownHeaders last.header.parent)
      c.generateTopWorkChainLoop fuel parent hashset numberToHash

def generateTopWorkChainHashset (c : Chain) : Outcome Chain := do
  let (hashset, numberToHash) ← c.generateTopWorkChainLoop (c.topHeader.number + 1) c.topHeader ∅ fun _ => none
  pure { c with mostWorkChain := hashset, numberToHash := numberToHash }

end Chain

/-- `GENESIS_HEADER` with the hash that `construct` computes for it. -/
def genesisHeader : BlockHeaderOwned where
  version := 1
  parent := emptyHash
  merkleRoot := ⟨[0x3b, 0xa3, 0xed, 0xfd, 0x7a, 0x7b, 0x12, 0xb2, 0x7a, 0xc7, 0x2c, 0x3e, 0x67, 0x76, 0x8f, 0x61,
    0x7f, 0xc8, 0x1b, 0xc3, 0x88, 0x8a, 0x51, 0x32, 0x3a, 0x9f, 0xb8, 0xaa, 0x4b, 0x1e, 0x5e, 0x4a], rfl⟩
  timestamp := 1231006505
  bits := 0x1d00ffff
  nonce := 0x7c2bac1d
  txsCount := 1
  hash := ⟨[0x6f, 0xe2, 0x8c, 0x0a, 0xb6, 0xf1, 0xb3, 0x72, 0xc1, 0xa6, 0xa2, 0x46, 0xae, 0x63, 0xf7, 0x4f,
    0x93, 0x1e, 0x83, 0x65, 0xe1, 0x5a, 0x08, 0x9c, 0x68, 0xd6, 0x19, 0x00, 0x00, 0x00, 0x00, 0x00], rfl⟩

/-- The genesis record with its total work. -/
def genesis : BlockHeaderWithNumber := ⟨genesisHeader, 0, false, 4295032833, none⟩

theorem genesis_totalWork : getWork genesisHeader.bits = .ok genesis.totalWork := by decide

def Chain.default : Chain where
  topHeader := genesis
  knownHeaders := mapInsert (fun _ => none) genesisHeader.hash genesis
  numberToHash := mapInsert (fun _ => none) 0 genesisHeader.hash
  mostWorkChain := {genesisHeader.hash}

/-- The statics of the chain manager: `CHAIN`, `DOWNLOADED_BLOCKS`, and the
spawned `insert_header` tasks. -/
structure Chainman where
  chain : Chain
  downloadedBlocks : Nat
  inserts : List BlockHeaderWithNumber

namespace Chainman

def learn (w : Chainman) (new : BlockHeaderWithNumber) : Chainman :=
  { w with
    chain := { w.chain with knownHeaders := mapInsert w.chain.knownHeaders new.header.hash new }
    inserts := w.inserts ++ [new] }

def setTop (w : Chainman) (new : BlockHeaderWithNumber) : Chainman :=
  { w with chain := { w.chain with topHeader := new } }

/-- The branch of `validate_and_apply_header_inner` for a header that becomes the
new top outside header sync. -/
def applyNewTop (p : Profile) (w : Chainman) (new : BlockHeaderWithNumber) :
    Chainman × Outcome (Option HeaderApplicationResult) :=
  if new.header.parent = w.chain.topHeader.header.hash then
    (w.setTop new, .ok (some ⟨[], [(new.header.hash, new.number)]⟩))
  else
    match w.chain.forkWalk p new (new.number - 1) with
    | .ok (visitedNew, visitedOld) =>
      match (w.setTop new).chain.calculateDownloadedBlocks with
      | .ok count => ({ w.setTop new with downloadedBlocks := count }, .ok (some ⟨visitedOld, visitedNew.reverse⟩))
      | _ => (w.setTop new, .fault)
    | _ => (w, .fault)

/-- `ok none`: known already, or stored without becoming the new top; `err`: not
applied. -/
def validateAndApplyHeaderInner (p : Profile) (header : BlockHeaderOwned) (isHeadersync : Bool) (w : Chainman) :
    Chainman × Outcome (Option HeaderApplicationResult) :=
  match w.chain.newHeader p header with
  | .ok (some new) =>
    if new.totalWork < w.chain.topHeader.totalWork then (w.learn new, .ok none)
    else if isHeadersync then ((w.learn new).setTop new, .ok none)
    else (w.learn new).applyNewTop p new
  | .ok none => (w, .ok none)
  | .err => (w, .err)
  | .fault => (w, .fault)

/-- `validate_and_apply_headers`: the first error ends the batch, the headers
before it stay applied. -/
def validateAndApplyHeaders (p : Profile) : List BlockHeaderOwned → Chainman → Chainman × Outcome Unit
  | [], w => (w, .ok ())
  | header :: headers, w =>
    match w.validateAndApplyHeaderInner p header true with
    | (w', .ok _) => w'.validateAndApplyHeaders p headers
    | (w', .err) => (w', .err)
    | (w', .fault) => (w', .fault)

/-- Marks one block; `none` when the header is not known, where the code panics. -/
def markOne (w : Chainman) (block : Hash) (coinbaseAscii : Bytes) : Option Chainman :=
  (w.chain.knownHeaders block).map fun h =>
    { w with
      chain := { w.chain with
        knownHeaders := mapInsert w.chain.knownHeaders block
          { h with fetchedFull := true, coinbaseAscii := some (fromUtf8Lossy coinbaseAscii) } } }

def markAll (w : Chainman) : List (Hash × Bytes) → Option Chainman
  | [] => some w
  | (block, coinbaseAscii) :: rest => (w.markOne block coinbaseAscii).bind fun w' => w'.markAll rest

def markAsDownloaded (blocks : List (Hash × Bytes)) (w : Chainman) : Outcome Chainman := do
  let marked ← Outcome.unwrap (w.markAll blocks)
  let top ← Outcome.unwrap (marked.chain.knownHeaders marked.chain.topHeader.header.hash)
  let synced := marked.setTop { marked.chain.topHeader with fetchedFull := top.fetchedFull }
  let count ← synced.chain.calculateDownloadedBlocks
  pure { synced with downloadedBlocks := count }

def getBlockHashesLoop (c : Chain) : Nat → BlockHeaderWithNumber → List Hash → Outcome (List Hash × Nat)
  | 0, _, _ => .fault
  | fuel + 1, header, all =>
    if header.number = 0 then .ok (all ++ [header.header.hash], header.number)
    else
      match c.knownHeaders header.header.parent with
      | none => .ok (all ++ [header.header.hash], header.number)
      | some parent =>
        if parent.fetchedFull then .ok (all ++ [header.header.hash], header.number)
        else getBlockHashesLoop c fuel parent (all ++ [header.header.hash])

def getBlockHashesToDownload (w : Chainman) : Outcome (Option (List Hash × Nat)) :=
  if w.downloadedBlocks > w.chain.topHeader.number then .ok none
  else do
    let (all, lastAdded) ← getBlockHashesLoop w.chain (w.chain.topHeader.number + 1) w.chain.topHeader []
    pure (some (all.reverse, lastAdded))

end Chainman

end Bitlens

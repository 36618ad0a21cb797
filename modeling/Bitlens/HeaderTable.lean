import Bitlens.Chain
import Mathlib.Data.List.Perm.Basic

namespace Bitlens
open Lib

/-- A row of the `headers` table; `block_hash` is its primary key. -/
structure HeaderRow where
  version : UInt32
  previousBlock : Hash
  merkleRoot : Hash
  timestamp : UInt32
  bits : UInt32
  nonce : UInt32
  blockNumber : Nat
  blockHash : Hash
  fetchedFull : Bool
  coinbaseAscii : Option Bytes
  deriving DecidableEq

structure InsertHeaderRequest where
  parent : Hash
  merkleRoot : Hash
  timestamp : UInt32
  bits : UInt32
  nonce : UInt32
  version : UInt32
  number : Nat
  hash : Hash
  deriving DecidableEq

/-- The request that `insert_header` sends to the batcher. -/
def BlockHeaderWithNumber.request (b : BlockHeaderWithNumber) : InsertHeaderRequest where
  parent := b.header.parent
  merkleRoot := b.header.merkleRoot
  timestamp := b.header.timestamp
  bits := b.header.bits
  nonce := b.header.nonce
  version := b.header.version
  number := b.number
  hash := b.header.hash

/-- The columns of a row that an insert writes. -/
def HeaderRow.request (row : HeaderRow) : InsertHeaderRequest where
  parent := row.previousBlock
  merkleRoot := row.merkleRoot
  timestamp := row.timestamp
  bits := row.bits
  nonce := row.nonce
  version := row.version
  number := row.blockNumber
  hash := row.blockHash

def InsertHeaderRequest.row (r : InsertHeaderRequest) : HeaderRow where
  version := r.version
  previousBlock := r.parent
  merkleRoot := r.merkleRoot
  timestamp := r.timestamp
  bits := r.bits
  nonce := r.nonce
  blockNumber := r.number
  blockHash := r.hash
  fetchedFull := false
  coinbaseAscii := none

/-- `INSERT INTO headers .. ON CONFLICT DO NOTHING`. -/
def insertRow (rows : List HeaderRow) (r : InsertHeaderRequest) : List HeaderRow :=
  if r.hash ∈ rows.map (·.blockHash) then rows else rows ++ [r.row]

/-- `UPDATE headers SET fetched_full = ?, coinbase_ascii = ? WHERE block_hash = ?`. -/
def updateRow (rows : List HeaderRow) (block : Hash × Bytes) : List HeaderRow :=
  rows.map fun row =>
    if row.blockHash = block.1 then { row with fetchedFull := true, coinbaseAscii := some block.2 } else row

/-- The headers part of `mark_blocks_as_downloaded`. -/
def markBlocksAsDownloaded (rows : List HeaderRow) (blocks : List (Hash × Bytes)) : List HeaderRow :=
  blocks.foldl updateRow rows

/-- The row mapper of `get_all_headers` over the selected rows, with `work_totals`
and `parents_fetched`. A row without its parent's work is an error that `flatten`
drops. -/
def getAllHeadersLoop (workTotals : Hash → Option Nat) (parentsFetched : Finset Hash) :
    List HeaderRow → Outcome (List BlockHeaderWithNumber)
  | [] => .ok []
  | row :: rows =>
    match workTotals row.previousBlock with
    | none => getAllHeadersLoop workTotals parentsFetched rows
    | some parentWork => do
      let work ← getWork row.bits
      let ourWork ← u256Add parentWork work
      let actuallyFetched := decide (row.previousBlock ∈ parentsFetched) && row.fetchedFull
      let rest ← getAllHeadersLoop (mapInsert workTotals row.blockHash ourWork)
        (if actuallyFetched then insert row.blockHash parentsFetched else parentsFetched) rows
      pure ({
        header := ⟨row.version, row.previousBlock, row.merkleRoot, row.timestamp, row.bits, row.nonce, 0, row.blockHash⟩
        number := row.blockNumber
        fetchedFull := actuallyFetched
        totalWork := ourWork
        coinbaseAscii := if actuallyFetched then row.coinbaseAscii.map fromUtf8Lossy else none } :: rest)

/-- `SELECT .. FROM headers ORDER BY block_number ASC`: the rows in some order
that is ascending in the number. -/
def Selects (rows ordered : List HeaderRow) : Prop :=
  ordered.Perm rows ∧ ordered.Pairwise fun a b => a.blockNumber ≤ b.blockNumber

instance (rows ordered : List HeaderRow) : Decidable (Selects rows ordered) :=
  inferInstanceAs (Decidable (_ ∧ _))

def getAllHeaders (ordered : List HeaderRow) : Outcome (List BlockHeaderWithNumber) :=
  getAllHeadersLoop (mapInsert (fun _ => none) emptyHash 0) {emptyHash} ordered

/-- The loop of `load_headers_from_sqlite`. -/
def Chain.addLoaded (c : Chain) (new : BlockHeaderWithNumber) : Chain :=
  { c with
    topHeader := if new.totalWork > c.topHeader.totalWork then new else c.topHeader
    knownHeaders := mapInsert c.knownHeaders new.header.hash new }

/-- `load_headers_from_sqlite` in a new process, for one order of the rows. -/
def loadHeadersFromSqlite (ordered : List HeaderRow) : Outcome Chainman := do
  let headers ← getAllHeaders ordered
  let chain ← (headers.foldl Chain.addLoaded Chain.default).generateTopWorkChainHashset
  let count ← chain.calculateDownloadedBlocks
  pure ⟨chain, count, []⟩

end Bitlens

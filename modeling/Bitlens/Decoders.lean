import Bitlens.Packets
import Bitlens.Lib.Decode

namespace Bitlens
open Lib

variable {m : Type → Type} [Decoding m] {α : Type}

/-! The trait `Buffer`. -/

/-- The `width` bytes that `get_u16_le` and its siblings read. -/
def getBytes (width : Nat) (buffer : Bytes) (offset : Nat) : m Bytes := do
  let stop ← add offset width
  orBail (getRange buffer offset stop)

def getU16 (buffer : Bytes) (offset : Nat) : m UInt16 := do
  let bytes ← getBytes 2 buffer offset
  pure (UInt16.ofNat (beNat bytes))

def getU16Le (buffer : Bytes) (offset : Nat) : m UInt16 := do
  let bytes ← getBytes 2 buffer offset
  pure (UInt16.ofNat (leNat bytes))

def getU32Le (buffer : Bytes) (offset : Nat) : m UInt32 := do
  let bytes ← getBytes 4 buffer offset
  pure (UInt32.ofNat (leNat bytes))

def getU64Le (buffer : Bytes) (offset : Nat) : m UInt64 := do
  let bytes ← getBytes 8 buffer offset
  pure (UInt64.ofNat (leNat bytes))

def getHash (buffer : Bytes) (offset : Nat) : m Hash := do
  let bytes ← getBytes 32 buffer offset
  orBail (ByteArr.ofBytes 32 bytes)

def withOffset (buffer : Bytes) (offset : Nat) : m Bytes :=
  orBail (getRange buffer offset buffer.length)

/-! Compact sizes, strings and arrays. -/

def deserializeVarint (buffer : Bytes) : m (UInt64 × Nat) :=
  match buffer with
  | [] => bail
  | leader :: _ =>
    if leader < 0xFD then pure (leader.toUInt64, 1)
    else if leader = 0xFD then do
      let value ← getU16Le buffer 1
      pure (value.toUInt64, 3)
    else if leader = 0xFE then do
      let value ← getU32Le buffer 1
      pure (value.toUInt64, 5)
    else do
      let value ← getU64Le buffer 1
      pure (value, 9)

def deserializeVarstr (buffer : Bytes) : m (Bytes × Nat) := do
  let (length, offset) ← deserializeVarint buffer
  let needed ← addLength length.toNat offset
  ensure (¬ buffer.length < needed)
  let stop ← add offset length.toNat
  let bytes ← Decoding.unwrap (getRange buffer offset stop)
  let consumed ← add offset length.toNat
  pure (bytes, consumed)

def skipVarstrs (buffer : Bytes) : Nat → Nat → m Nat
  | 0, offset => pure offset
  | remaining + 1, offset => do
    let rest ← withOffset buffer offset
    let (varstrLength, consumed) ← deserializeVarint rest
    let offset ← add offset consumed
    let offset ← addLength offset varstrLength.toNat
    skipVarstrs buffer remaining offset

def deserializeArrayOfVarstrAsVarstr (buffer : Bytes) : m (Bytes × Nat) := do
  let (remainingVarstrs, offset) ← deserializeVarint buffer
  let offset ← skipVarstrs buffer remainingVarstrs.toNat offset
  let r ← orBail (getRange buffer 0 offset)
  pure (r, offset)

/-- The loop of `deserialize_array` and those like it: `count` items behind each other. -/
def deserializeItems (item : Bytes → m (α × Nat)) (buffer : Bytes) : Nat → Nat → m (List α × Nat)
  | 0, offset => pure ([], offset)
  | count + 1, offset => do
    let rest ← withOffset buffer offset
    let (value, consumed) ← item rest
    let offset ← add offset consumed
    let (values, offset) ← deserializeItems item buffer count offset
    pure (value :: values, offset)

def deserializeArray (layout : Layout) (item : Bytes → m (α × Nat)) (buffer : Bytes) : m (List α × Nat) := do
  let (count, offset) ← deserializeVarint buffer
  tryAllocArray layout count.toNat
  deserializeItems item buffer count.toNat offset

/-! Sizes and alignments of the decoded types on a 64-bit target. -/

def versionLayout : Layout := ⟨104, 8⟩
def emptyLayout : Layout := ⟨0, 1⟩
def nonceLayout : Layout := ⟨8, 8⟩
def txLayout : Layout := ⟨120, 8⟩
def txInLayout : Layout := ⟨32, 8⟩
def txOutLayout : Layout := ⟨24, 8⟩
def headerLayout : Layout := ⟨72, 8⟩
def blockLayout : Layout := ⟨88, 8⟩
def sliceLayout : Layout := ⟨16, 8⟩
def inventoryVectorLayout : Layout := ⟨16, 8⟩
def netAddrLayout : Layout := ⟨24, 8⟩
def netAddrV2Layout : Layout := ⟨32, 8⟩
def getHeadersLayout : Layout := ⟨32, 8⟩
def referenceLayout : Layout := ⟨8, 8⟩

/-! Transactions. -/

def deserializeTxIn (buffer : Bytes) : m (TxIn × Nat) := do
  let prevoutHash ← getHash buffer 0
  let prevoutIndex ← getU32Le buffer 32
  let rest ← withOffset buffer 36
  let (script, offset) ← deserializeVarstr rest
  let position ← add offset 36
  let sequence ← getU32Le buffer position
  let consumed ← add offset 40
  pure (⟨prevoutHash, prevoutIndex, sequence, script⟩, consumed)

def deserializeTxOut (buffer : Bytes) : m (TxOut × Nat) := do
  let value ← getU64Le buffer 0
  let rest ← withOffset buffer 8
  let (script, offset) ← deserializeVarstr rest
  let consumed ← add offset 8
  pure (⟨value, script⟩, consumed)

/-- `reduce` with `&&`. -/
def reduceAnd : List Bool → Option Bool
  | [] => none
  | first :: rest => some (rest.foldl (· && ·) first)

/-- `Sha256::digest` applied twice. -/
def digestTwice (sha256 : Bytes → Hash) (bytes : Bytes) : Hash :=
  sha256 (sha256 bytes).1

/-- The witnesses of a transaction and the offset behind them. -/
def deserializeWitnesses (hasWitnessData : Bool) (buffer : Bytes) (count offset : Nat) :
    m (Option (List Bytes) × Nat) :=
  if hasWitnessData then do
    tryAllocArray sliceLayout count
    let (wits, offset) ← deserializeItems deserializeArrayOfVarstrAsVarstr buffer count offset
    pure (some wits, offset)
  else pure (none, offset)

/-- The hash leaves out the witness marker and the witnesses. -/
def computeHash (sha256 : Bytes → Hash) (hasWitnessData : Bool) (buffer : Bytes) (witnessesStart witnessesEnd : Nat) :
    m Hash :=
  if hasWitnessData then do
    let version ← Decoding.unwrap (getRange buffer 0 4)
    let arrays ← Decoding.unwrap (getRange buffer 6 witnessesStart)
    let stop ← add witnessesEnd 4
    let locktime ← Decoding.unwrap (getRange buffer witnessesEnd stop)
    pure (digestTwice sha256 (version ++ arrays ++ locktime))
  else do
    let stop ← add witnessesEnd 4
    let whole ← Decoding.unwrap (getRange buffer 0 stop)
    pure (digestTwice sha256 whole)

def computeWitnessHash (sha256 : Bytes → Hash) (witnesses : Option (List Bytes)) (hash : Hash) (buffer : Bytes)
    (witnessesEnd : Nat) : m Hash :=
  match witnesses with
  | some wits => do
    -- a single byte is an empty witness
    let allTxinsEmpty ← Decoding.unwrap (reduceAnd (wits.map fun txin => txin.length = 1))
    if allTxinsEmpty then pure hash
    else do
      let stop ← add witnessesEnd 4
      let whole ← Decoding.unwrap (getRange buffer 0 stop)
      pure (digestTwice sha256 whole)
  | none => pure hash

def deserializeTx (sha256 : Bytes → Hash) {m : Type → Type} [Decoding m] (buffer : Bytes) : m (Tx × Nat) := do
  let version ← getU32Le buffer 0
  let marker ← orBail (getRange buffer 4 6)
  let hasWitnessData := decide (marker = [0x00, 0x01])
  let offset := if hasWitnessData then 6 else 4
  let rest ← withOffset buffer offset
  let (txins, offsetDelta) ← deserializeArray txInLayout deserializeTxIn rest
  let offset ← add offset offsetDelta
  ensure (txins.isEmpty = false)
  let rest ← withOffset buffer offset
  let (txouts, offsetDelta) ← deserializeArray txOutLayout deserializeTxOut rest
  let witnessesStart ← add offset offsetDelta
  let (witnesses, witnessesEnd) ← deserializeWitnesses hasWitnessData buffer txins.length witnessesStart
  let locktime ← getU32Le buffer witnessesEnd
  let hash ← computeHash sha256 hasWitnessData buffer witnessesStart witnessesEnd
  let witnessHash ← computeWitnessHash sha256 witnesses hash buffer witnessesEnd
  let consumed ← add witnessesEnd 4
  pure (⟨version, locktime, txins, txouts, witnesses, hash, witnessHash⟩, consumed)

/-! Headers and blocks. -/

/-- `BlockHeaderRef::is_valid`: the hash has at least `bits` amount of work. -/
def isValid (hash : Hash) (bits : UInt32) : Prop :=
  leNat hash.1 < u256FromCompact bits

instance (hash : Hash) (bits : UInt32) : Decidable (isValid hash bits) :=
  inferInstanceAs (Decidable (_ < _))

def deserializeBlockHeader (sha256 : Bytes → Hash) {m : Type → Type} [Decoding m] (buffer : Bytes) : m (BlockHeaderOwned × Nat) := do
  let version ← getU32Le buffer 0
  let parent ← getHash buffer 4
  let merkleRoot ← getHash buffer 36
  let timestamp ← getU32Le buffer 68
  let bits ← getU32Le buffer 72
  let nonce ← getU32Le buffer 76
  let rest ← withOffset buffer 80
  let (txsCount, offset) ← deserializeVarint rest
  let bytes ← Decoding.unwrap (getRange buffer 0 80)
  let hash := digestTwice sha256 bytes
  ensure (isValid hash bits)
  let consumed ← add 80 offset
  pure (⟨version, parent, merkleRoot, timestamp, bits, nonce, txsCount, hash⟩, consumed)

/-- Two neighbouring hashes are equal. -/
def hasRepeat : List Hash → Bool
  | first :: second :: rest => first = second || hasRepeat (second :: rest)
  | _ => false

/-- `collapse`: the hashes of the pairs; the last element of an odd list is paired with itself. -/
def collapse (sha256 : Bytes → Hash) : List Hash → List Hash
  | left :: right :: rest => digestTwice sha256 (left.1 ++ right.1) :: collapse sha256 rest
  | [last] => [digestTwice sha256 (last.1 ++ last.1)]
  | [] => []

theorem length_collapse (sha256 : Bytes → Hash) (hashes : List Hash) :
    (collapse sha256 hashes).length = (hashes.length + 1) / 2 := by
  fun_induction collapse sha256 hashes with
  | case1 left right rest ih =>
    rw [List.length_cons, ih, List.length_cons, List.length_cons]
    omega
  | case2 last => simp
  | case3 => rfl

/-- `MerkleTree::into_root`. -/
def intoRoot (sha256 : Bytes → Hash) (hashes : List Hash) (mutation : Bool) : Hash × Bool :=
  match hashes with
  | [] => (emptyHash, false)
  | [root] => (root, mutation)
  | first :: second :: rest =>
    intoRoot sha256 (collapse sha256 (first :: second :: rest)) (mutation || hasRepeat (first :: second :: rest))
termination_by hashes.length
decreasing_by
  rw [length_collapse, List.length_cons, List.length_cons]
  omega

def deserializeBlock (sha256 : Bytes → Hash) {m : Type → Type} [Decoding m] (buffer : Bytes) : m (Block × Nat) := do
  let (header, _) ← deserializeBlockHeader sha256 buffer
  let rest ← withOffset buffer 80
  let (txs, offset) ← deserializeArray txLayout (deserializeTx sha256) rest
  let (merkleRoot, mutated) := intoRoot sha256 (txs.map (·.hash)) false
  ensure (mutated = false)
  ensure (merkleRoot = header.merkleRoot)
  let consumed ← add offset 80
  pure (⟨header, txs⟩, consumed)

end Bitlens

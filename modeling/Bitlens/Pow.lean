import Bitlens.Lib.Outcome
import Bitlens.Lib.Bytes

namespace Bitlens
open Lib

abbrev Hash := ByteArr 32

/-- `EMPTY_HASH`, the parent of the genesis block. -/
def emptyHash : Hash := ByteArr.fill 32 0

/-! `U256` is a natural number below `2 ^ 256`; its operators panic on overflow
in every build profile. -/

def u256Add (a b : Nat) : Outcome Nat :=
  if a + b < 2 ^ 256 then .ok (a + b) else .fault

def u256Mul (a b : Nat) : Outcome Nat :=
  if a * b < 2 ^ 256 then .ok (a * b) else .fault

def u256Div (a b : Nat) : Outcome Nat :=
  if b = 0 then .fault else .ok (a / b)

def u256AsU32 (a : Nat) : Outcome Nat :=
  if a < 2 ^ 32 then .ok a else .fault

def u256FromCompact (compact : UInt32) : Nat :=
  let size := compact.toNat >>> 24
  let word := compact.toNat &&& 0x007FFFFF
  if size ≤ 3 then word >>> (8 * (3 - size)) else (word <<< (8 * (size - 3))) % 2 ^ 256

/-- `U256::bits` followed by `div_ceil(8)`. -/
def u256Size (value : Nat) : Nat :=
  ((if value = 0 then 0 else Nat.log2 value + 1) + 7) / 8

def compactFromU256 (value : Nat) : Outcome UInt32 := do
  let size := u256Size value
  let compact ←
    if size ≤ 3 then (fun v => v <<< (8 * (3 - size)) % 2 ^ 32) <$> u256AsU32 value
    else u256AsU32 (value >>> (8 * (size - 3)))
  if compact &&& 0x00800000 = 0x00800000 then
    pure (UInt32.ofNat (compact >>> 8 ||| (size + 1) <<< 24 % 2 ^ 32))
  else
    pure (UInt32.ofNat (compact ||| size <<< 24 % 2 ^ 32))

def powTargetTimespan : Nat := 14 * 24 * 60 * 60

def powTargetSpacing : Nat := 10 * 60

def powLimit : Nat := 0x00000000ffffffffffffffffffffffffffffffffffffffffffffffffffffffff

def difficultyAdjustmentInterval : Nat := powTargetTimespan / powTargetSpacing

def calculateNextWorkRequired (p : Profile) (lastTimestamp firstBlockTime lastBits : UInt32) :
    Outcome UInt32 := do
  let elapsed ← p.sub 32 lastTimestamp.toNat firstBlockTime.toNat
  let actualTimestamp :=
    if elapsed < powTargetTimespan / 4 then powTargetTimespan / 4
    else if elapsed > powTargetTimespan * 4 then powTargetTimespan * 4
    else elapsed
  let scaled ← u256Mul (u256FromCompact lastBits) actualTimestamp
  let difficulty ← u256Div scaled powTargetTimespan
  compactFromU256 (if difficulty > powLimit then powLimit else difficulty)

/-- `BlockHeaderRef::get_work`, from the header's `bits`. -/
def getWork (bits : UInt32) : Outcome Nat := do
  let uncompacted := u256FromCompact bits
  let inverted := 2 ^ 256 - 1 - uncompacted
  let divisor ← u256Add uncompacted 1
  let result ← u256Div inverted divisor
  u256Add result 1

example : u256FromCompact 0x1d00ffff = 0xffff * 2 ^ 208 := by decide

end Bitlens

import Bitlens.Lib.RangeScan
import Bitlens.Script

namespace Bitlens
open Lib

/-! Addresses in scripts. -/

/-- The bytes between fixed bytes before and after them, in a script of just that length. -/
def payloadOf (before : Bytes) (size : Nat) (after : Bytes) (script : Bytes) : Option Bytes :=
  if script.length = before.length + size + after.length ∧ script.take before.length = before ∧
      script.drop (before.length + size) = after then
    some ((script.drop before.length).take size)
  else none

def p2pkFull : Bytes → Option Bytes := payloadOf [0x41] 65 [opChecksig]
def p2pkShort : Bytes → Option Bytes := payloadOf [0x21] 33 [opChecksig]
def getP2shAddress : Bytes → Option Bytes := payloadOf [opHash160, 0x14] 20 [opEqual]
def getP2pkhAddress : Bytes → Option Bytes := payloadOf [opDup, opHash160, 0x14] 20 [opEqualverify, opChecksig]
def p2wsh : Bytes → Option Bytes := payloadOf [op0, 0x14] 20 []
def p2wpkh : Bytes → Option Bytes := payloadOf [op0, 0x20] 32 []
def taproot : Bytes → Option Bytes := payloadOf [op1, 0x20] 32 []

def getP2pkAddress (script : Bytes) : Option Bytes :=
  (p2pkFull script).or (p2pkShort script)

def getBech32Address (script : Bytes) : Option Bytes :=
  (p2wsh script).or ((p2wpkh script).or (taproot script))

def scriptHasAddress (script : Bytes) : Bool :=
  (getP2pkAddress script).isSome || (getP2shAddress script).isSome || (getP2pkhAddress script).isSome ||
    (getBech32Address script).isSome

/-- The address bytes of a script, of the first kind that it is. -/
def addressOf (script : Bytes) : Option Bytes :=
  (getP2pkAddress script).or ((getP2shAddress script).or ((getP2pkhAddress script).or (getBech32Address script)))

/-- The key of a transaction in the index of an address: newer transactions come first. -/
def amendKey (address : Bytes) (timestamp : UInt64) (txhash : Hash) : Bytes :=
  address ++ beBytes 8 (2 ^ 64 - 1 - timestamp.toNat) ++ txhash.1

def getAddressFromScriptCopyIntoArenaWithTxhash (script : Bytes) (txhash : Hash) (timestamp : UInt64) : Option Bytes :=
  (addressOf script).map (amendKey · timestamp txhash)

theorem scriptHasAddress_iff {script : Bytes} : scriptHasAddress script = true ↔ addressOf script ≠ none := by
  simp only [scriptHasAddress, addressOf, Bool.or_eq_true, Option.isSome_iff_ne_none, ne_eq, Option.or_eq_none_iff]
  tauto

theorem isSome_address {script : Bytes} {txhash : Hash} {timestamp : UInt64} :
    (getAddressFromScriptCopyIntoArenaWithTxhash script txhash timestamp).isSome = scriptHasAddress script := by
  rw [Bool.eq_iff_iff, scriptHasAddress_iff, getAddressFromScriptCopyIntoArenaWithTxhash, Option.isSome_map,
    Option.isSome_iff_ne_none]

/-- Unary minus on `i64`, which panics on the least number in `dev`. -/
def negI64 (p : Profile) (a : Int64) : Outcome Int64 :=
  if p = .dev ∧ a = Int64.minValue then .fault else .ok (-a)

theorem negI64_ok {p : Profile} {delta : Int64} (defined : p = .dev → delta ≠ Int64.minValue) :
    negI64 p delta = .ok (-delta) := by
  rw [negI64, if_neg]
  intro ⟨dev, least⟩
  exact defined dev least

/-- What the loop over the dependencies pushes for one of them. -/
def spentAmends (p : Profile) (txhash : Hash) (timestamp : UInt64) (txout : TxOut) : Outcome (List (Bytes × Int64)) :=
  match getAddressFromScriptCopyIntoArenaWithTxhash txout.script txhash timestamp with
  | some addressBytes => do
    let delta ← negI64 p txout.value.toInt64
    pure [(addressBytes, delta)]
  | none => pure []

/-- The pairs that `serialize_address_amends` pushes before it sorts them. -/
def addressAmends (p : Profile) (tx : Tx) (deps : List TxOut) (timestamp : UInt64) : Outcome (List (Bytes × Int64)) := do
  let spent ← Outcome.flatMapM (spentAmends p tx.hash timestamp) deps
  pure (spent ++ tx.txouts.filterMap fun txout =>
    (getAddressFromScriptCopyIntoArenaWithTxhash txout.script tx.hash timestamp).map (·, txout.value.toInt64))

def amendsCount (tx : Tx) (deps : List TxOut) : Nat :=
  (if tx.isCoinbase then 0 else deps.countP fun txout => scriptHasAddress txout.script) +
    tx.txouts.countP fun txout => scriptHasAddress txout.script

/-- A possible result of `serialize_address_amends`, which sorts by key with an
unstable sort. A push beyond the counted capacity panics. -/
def SerializesAddressAmends (p : Profile) (tx : Tx) (deps : List TxOut) (timestamp : UInt64)
    (result : Option (List (Bytes × Int64))) : Prop :=
  if amendsCount tx deps = 0 then result = none
  else ∃ amends sorted, addressAmends p tx deps timestamp = .ok amends ∧ amends.length ≤ amendsCount tx deps ∧
    SortsBy Prod.fst amends sorted ∧ result = some sorted

/-! Addresses as text. -/

inductive Address where
  | p2pkFull (value : String)
  | p2pkShort (value : String)
  | p2pkh (value : String)
  | p2sh (value : String)
  | p2wsh (value : String)
  | p2wpkh (value : String)
  | taproot (value : String)
  | opReturn
  | unknown
  | coinbase
  deriving DecidableEq

/-- The text encodings of the libraries `hex`, `bs58` with its checksum and a version
byte, and `bech32` for segwit programs on the main network: each decoder reads what its
encoder writes. -/
structure AddressCodecs where
  hexEncode : Bytes → String
  hexDecode : String → Option Bytes
  base58Encode : UInt8 → Bytes → String
  base58Decode : UInt8 → String → Option Bytes
  segwitEncode : Nat → Bytes → String
  segwitDecode : String → Option (Bool × Nat × Bytes)
  hexDecode_encode : ∀ bytes, hexDecode (hexEncode bytes) = some bytes
  base58Decode_encode : ∀ version bytes, base58Decode version (base58Encode version bytes) = some (version :: bytes)
  segwitDecode_encode : ∀ version bytes, version ≤ 1 → bytes.length = 20 ∨ bytes.length = 32 →
    segwitDecode (segwitEncode version bytes) = some (true, version, bytes)

variable (codecs : AddressCodecs)

def getP2pkAddressHuman (script : Bytes) : Option Address :=
  ((payloadOf [0x41] 65 [opChecksig] script).map fun value => .p2pkFull (codecs.hexEncode value)).or
    ((payloadOf [0x21] 33 [opChecksig] script).map fun value => .p2pkShort (codecs.hexEncode value))

def getP2shAddressHuman (script : Bytes) : Option Address :=
  (payloadOf [opHash160, 0x14] 20 [opEqual] script).map fun value => .p2sh (codecs.base58Encode 0x05 value)

def getP2pkhAddressHuman (script : Bytes) : Option Address :=
  (payloadOf [opDup, opHash160, 0x14] 20 [opEqualverify, opChecksig] script).map fun value =>
    .p2pkh (codecs.base58Encode 0x00 value)

def getBech32AddressHuman (script : Bytes) : Option Address :=
  ((payloadOf [op0, 0x14] 20 [] script).map fun value => .p2wsh (codecs.segwitEncode 0 value)).or
    (((payloadOf [op0, 0x20] 32 [] script).map fun value => .p2wpkh (codecs.segwitEncode 0 value)).or
      ((payloadOf [op1, 0x20] 32 [] script).map fun value => .taproot (codecs.segwitEncode 1 value)))

def getHumanAddressFromScript (script : Bytes) : Address :=
  ((getP2pkAddressHuman codecs script).or ((getP2shAddressHuman codecs script).or
    ((getP2pkhAddressHuman codecs script).or (getBech32AddressHuman codecs script)))).getD
      (if script.head? = some opReturn then .opReturn else .unknown)

/-! The text functions make the tests of the byte functions again. -/

theorem getP2pkAddressHuman_eq {script : Bytes} : getP2pkAddressHuman codecs script =
    ((p2pkFull script).map fun value => .p2pkFull (codecs.hexEncode value)).or
      ((p2pkShort script).map fun value => .p2pkShort (codecs.hexEncode value)) := rfl

theorem getP2shAddressHuman_eq {script : Bytes} : getP2shAddressHuman codecs script =
    (getP2shAddress script).map fun value => .p2sh (codecs.base58Encode 0x05 value) := rfl

theorem getP2pkhAddressHuman_eq {script : Bytes} : getP2pkhAddressHuman codecs script =
    (getP2pkhAddress script).map fun value => .p2pkh (codecs.base58Encode 0x00 value) := rfl

theorem getBech32AddressHuman_eq {script : Bytes} : getBech32AddressHuman codecs script =
    ((p2wsh script).map fun value => .p2wsh (codecs.segwitEncode 0 value)).or
      (((p2wpkh script).map fun value => .p2wpkh (codecs.segwitEncode 0 value)).or
        ((taproot script).map fun value => .taproot (codecs.segwitEncode 1 value))) := rfl

/-- The first decoder that accepts the text decides. -/
def parseAddress (address : String) : Option (Bytes × Address) :=
  match codecs.hexDecode address with
  | some b =>
    if b.length = 65 then some (b, .p2pkFull address)
    else if b.length = 33 then some (b, .p2pkShort address)
    else none
  | none =>
    match codecs.base58Decode 0x00 address with
    | some b => if b.length = 21 ∧ b.head? = some 0x00 then some (b.tail, .p2pkh address) else none
    | none =>
      match codecs.base58Decode 0x05 address with
      | some b => if b.length = 21 ∧ b.head? = some 0x05 then some (b.tail, .p2sh address) else none
      | none =>
        match codecs.segwitDecode address with
        | some (isMainnet, fe, b) =>
          if isMainnet = false then none
          else if fe = 0 then
            if b.length = 20 then some (b, .p2wsh address)
            else if b.length = 32 then some (b, .p2wpkh address)
            else none
          else if fe = 1 ∧ b.length = 32 then some (b, .taproot address)
          else none
        | none => none

end Bitlens

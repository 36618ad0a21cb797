import Bitlens.AddressIndex
import Bitlens.AddressScan

namespace Bitlens
open Lib

variable {p : Profile} {codecs : AddressCodecs} {history : List (List KnownBlock)} {s : Stores}
  {iterate : Bytes → Bytes → List (Bytes × Bytes)} {text : String} {address key value : Bytes} {human : Address}

/-- A transaction of the history, in a block with the entry's hashes, that spends from or
pays to a script of the address. -/
def OfAddress (codecs : AddressCodecs) (history : List (List KnownBlock)) (human : Address) (entry : AddressEntry) : Prop :=
  ∃ batch ∈ history, ∃ block ∈ batch, block.header.hash = entry.blockHash ∧
    ∃ known ∈ block.txs, known.tx.hash = entry.txHash ∧
      ∃ txout ∈ known.touched, getHumanAddressFromScript codecs txout.script = human

/-- The history has written this key for a script of another address. -/
def ForeignKey (codecs : AddressCodecs) (history : List (List KnownBlock)) (human : Address) (key : Bytes) : Prop :=
  ∃ batch ∈ history, Ingested batch ∧ ∃ block ∈ batch, ∃ known ∈ block.txs, ∃ txout ∈ known.touched,
    getHumanAddressFromScript codecs txout.script ≠ human ∧
      getAddressFromScriptCopyIntoArenaWithTxhash txout.script known.tx.hash block.timestamp = some key

/-- Both queries return, with entries of the address only, and no stored key of another
address is in the range of keys of this one. -/
structure Separated (p : Profile) (codecs : AddressCodecs) (history : List (List KnownBlock)) (s : Stores)
    (iterate : Bytes → Bytes → List (Bytes × Bytes)) (address : Bytes) (human : Address) : Prop where
  top : ∀ topCount, ∃ data, getTopAddressData p iterate address topCount = .ok data ∧
    ∀ entry ∈ data.transactions, OfAddress codecs history human entry
  entires : ∀ fromTimestamp toTimestamp limit, ∃ results,
    getAddressEntires iterate address fromTimestamp toTimestamp limit = .ok results ∧
      ∀ entry ∈ results, OfAddress codecs history human entry
  foreign : ∀ key, s.amends key ≠ none → ForeignKey codecs history human key →
    ¬ InRange address key

/-- The address bytes of a script, followed by the inverted timestamp and the hash of a
transaction, begin with the bytes of the address and go on below eight bytes `0xff`. The
script may have the same bytes, or longer ones, or shorter ones that the timestamp and the
hash complete. -/
def Continues (address payload : Bytes) (timestamp : UInt64) (txhash : Hash) : Prop :=
  ∃ rest, payload ++ beBytes 8 (2 ^ 64 - 1 - timestamp.toNat) ++ txhash.1 = address ++ rest ∧
    beBytes 8 0 ≤ rest ∧ rest < beBytes 8 (2 ^ 64 - 1)

/-- No script of another address in an ingested batch has bytes that continue the address. -/
def Unshared (codecs : AddressCodecs) (history : List (List KnownBlock)) (address : Bytes) (human : Address) : Prop :=
  ∀ batch ∈ history, Ingested batch → ∀ block ∈ batch, ∀ known ∈ block.txs, ∀ txout ∈ known.touched,
    getHumanAddressFromScript codecs txout.script ≠ human → ∀ payload, addressOf txout.script = some payload →
      ¬ Continues address payload block.timestamp known.tx.hash

/-! An address as bytes and as text. -/

theorem length_of_payloadOf {before after script payload : Bytes} {size : Nat}
    (found : payloadOf before size after script = some payload) : payload.length = size := by
  rw [payloadOf, Option.ite_none_right_eq_some, Option.some.injEq] at found
  obtain ⟨⟨length, _, _⟩, rfl⟩ := found
  rw [List.length_take, List.length_drop]
  omega

/-- The text that encodes the bytes of an address, by the kind of the address. -/
inductive Encodes (codecs : AddressCodecs) : Bytes → Address → Prop
  | p2pkFull (payload : Bytes) : Encodes codecs payload (.p2pkFull (codecs.hexEncode payload))
  | p2pkShort (payload : Bytes) : Encodes codecs payload (.p2pkShort (codecs.hexEncode payload))
  | p2sh (payload : Bytes) : Encodes codecs payload (.p2sh (codecs.base58Encode 0x05 payload))
  | p2pkh (payload : Bytes) : Encodes codecs payload (.p2pkh (codecs.base58Encode 0x00 payload))
  | p2wsh {payload : Bytes} (length : payload.length = 20) : Encodes codecs payload (.p2wsh (codecs.segwitEncode 0 payload))
  | p2wpkh {payload : Bytes} (length : payload.length = 32) : Encodes codecs payload (.p2wpkh (codecs.segwitEncode 0 payload))
  | taproot {payload : Bytes} (length : payload.length = 32) :
      Encodes codecs payload (.taproot (codecs.segwitEncode 1 payload))

/-- The kind of address that a script holds, with its bytes and its text. -/
inductive HoldsAddress (codecs : AddressCodecs) (script : Bytes) : Bytes → Address → Prop
  | p2pkFull {payload : Bytes} (found : p2pkFull script = some payload) :
      HoldsAddress codecs script payload (.p2pkFull (codecs.hexEncode payload))
  | p2pkShort {payload : Bytes} (found : p2pkShort script = some payload) :
      HoldsAddress codecs script payload (.p2pkShort (codecs.hexEncode payload))
  | p2sh {payload : Bytes} (found : getP2shAddress script = some payload) :
      HoldsAddress codecs script payload (.p2sh (codecs.base58Encode 0x05 payload))
  | p2pkh {payload : Bytes} (found : getP2pkhAddress script = some payload) :
      HoldsAddress codecs script payload (.p2pkh (codecs.base58Encode 0x00 payload))
  | p2wsh {payload : Bytes} (found : p2wsh script = some payload) :
      HoldsAddress codecs script payload (.p2wsh (codecs.segwitEncode 0 payload))
  | p2wpkh {payload : Bytes} (found : p2wpkh script = some payload) :
      HoldsAddress codecs script payload (.p2wpkh (codecs.segwitEncode 0 payload))
  | taproot {payload : Bytes} (found : taproot script = some payload) :
      HoldsAddress codecs script payload (.taproot (codecs.segwitEncode 1 payload))

/-- The first kind that a script is decides both its bytes and its text. -/
theorem address_of_script (codecs : AddressCodecs) (script : Bytes) :
    (∃ payload, addressOf script = some payload ∧
      HoldsAddress codecs script payload (getHumanAddressFromScript codecs script)) ∨
        addressOf script = none ∧ (getHumanAddressFromScript codecs script = .opReturn ∨
          getHumanAddressFromScript codecs script = .unknown) := by
  rw [addressOf, getP2pkAddress, getBech32Address, getHumanAddressFromScript, getP2pkAddressHuman_eq,
    getP2shAddressHuman_eq, getP2pkhAddressHuman_eq, getBech32AddressHuman_eq]
  cases full : p2pkFull script with
  | some payload => exact Or.inl ⟨payload, rfl, .p2pkFull full⟩
  | none =>
  cases short : p2pkShort script with
  | some payload => exact Or.inl ⟨payload, rfl, .p2pkShort short⟩
  | none =>
  cases scriptHash : getP2shAddress script with
  | some payload => exact Or.inl ⟨payload, rfl, .p2sh scriptHash⟩
  | none =>
  cases keyHash : getP2pkhAddress script with
  | some payload => exact Or.inl ⟨payload, rfl, .p2pkh keyHash⟩
  | none =>
  cases witnessScript : p2wsh script with
  | some payload => exact Or.inl ⟨payload, rfl, .p2wsh witnessScript⟩
  | none =>
  cases witnessKey : p2wpkh script with
  | some payload => exact Or.inl ⟨payload, rfl, .p2wpkh witnessKey⟩
  | none =>
  cases root : taproot script with
  | some payload => exact Or.inl ⟨payload, rfl, .taproot root⟩
  | none =>
    refine Or.inr ⟨rfl, ?_⟩
    by_cases returns : script.head? = some opReturn
    · exact Or.inl (if_pos returns)
    · exact Or.inr (if_neg returns)

theorem HoldsAddress.encodes {script payload : Bytes} (holds : HoldsAddress codecs script payload human) :
    Encodes codecs payload human := by
  cases holds with
  | p2pkFull => exact .p2pkFull payload
  | p2pkShort => exact .p2pkShort payload
  | p2sh => exact .p2sh payload
  | p2pkh => exact .p2pkh payload
  | p2wsh found => exact .p2wsh (length_of_payloadOf found)
  | p2wpkh found => exact .p2wpkh (length_of_payloadOf found)
  | taproot found => exact .taproot (length_of_payloadOf found)

theorem encodes_of_script (codecs : AddressCodecs) (script : Bytes) :
    (∃ payload, addressOf script = some payload ∧ Encodes codecs payload (getHumanAddressFromScript codecs script)) ∨
      getHumanAddressFromScript codecs script = .opReturn ∨ getHumanAddressFromScript codecs script = .unknown := by
  rcases address_of_script codecs script with ⟨payload, found, holds⟩ | ⟨_, other⟩
  · exact Or.inl ⟨payload, found, holds.encodes⟩
  · exact Or.inr other

/-- What the decoder that accepted the text has read, by the kind of the address. -/
inductive ReadsAs (codecs : AddressCodecs) (text : String) (address : Bytes) : Address → Prop
  | p2pkFull (found : codecs.hexDecode text = some address) : ReadsAs codecs text address (.p2pkFull text)
  | p2pkShort (found : codecs.hexDecode text = some address) : ReadsAs codecs text address (.p2pkShort text)
  | p2pkh (found : codecs.base58Decode 0x00 text = some (0x00 :: address)) : ReadsAs codecs text address (.p2pkh text)
  | p2sh (found : codecs.base58Decode 0x05 text = some (0x05 :: address)) : ReadsAs codecs text address (.p2sh text)
  | p2wsh (found : codecs.segwitDecode text = some (true, 0, address)) : ReadsAs codecs text address (.p2wsh text)
  | p2wpkh (found : codecs.segwitDecode text = some (true, 0, address)) : ReadsAs codecs text address (.p2wpkh text)
  | taproot (found : codecs.segwitDecode text = some (true, 1, address)) : ReadsAs codecs text address (.taproot text)

theorem cons_tail_of_head {bytes : Bytes} {byte : UInt8} (head : bytes.head? = some byte) : bytes = byte :: bytes.tail := by
  obtain ⟨rest, rfl⟩ := List.head?_eq_some_iff.mp head
  rfl

theorem reads_of_parseAddress (parsed : parseAddress codecs text = some (address, human)) :
    ReadsAs codecs text address human := by
  rw [parseAddress] at parsed
  split at parsed
  · next bytes found =>
    split at parsed
    · cases parsed
      exact .p2pkFull found
    split at parsed
    · cases parsed
      exact .p2pkShort found
    · cases parsed
  split at parsed
  · next bytes found =>
    rw [Option.ite_none_right_eq_some] at parsed
    obtain ⟨⟨_, head⟩, shape⟩ := parsed
    cases shape
    rw [cons_tail_of_head head] at found
    exact .p2pkh found
  split at parsed
  · next bytes found =>
    rw [Option.ite_none_right_eq_some] at parsed
    obtain ⟨⟨_, head⟩, shape⟩ := parsed
    cases shape
    rw [cons_tail_of_head head] at found
    exact .p2sh found
  split at parsed
  · next isMainnet version bytes found =>
    cases isMainnet with
    | false => cases parsed
    | true =>
      rw [if_neg (Ne.symm Bool.false_ne_true)] at parsed
      split at parsed
      · next zero =>
        subst zero
        split at parsed
        · cases parsed
          exact .p2wsh found
        split at parsed
        · cases parsed
          exact .p2wpkh found
        · cases parsed
      · rw [Option.ite_none_right_eq_some] at parsed
        obtain ⟨⟨rfl, _⟩, shape⟩ := parsed
        cases shape
        exact .taproot found
  · cases parsed

/-- Decoding inverts encoding in each kind. -/
theorem ReadsAs.eq_of_encodes {payload : Bytes} (reads : ReadsAs codecs text address human)
    (encodes : Encodes codecs payload human) : payload = address := by
  cases encodes with
  | p2pkFull =>
    cases reads with
    | p2pkFull found => exact Option.some.inj ((codecs.hexDecode_encode payload).symm.trans found)
  | p2pkShort =>
    cases reads with
    | p2pkShort found => exact Option.some.inj ((codecs.hexDecode_encode payload).symm.trans found)
  | p2sh =>
    cases reads with
    | p2sh found => exact (List.cons.inj (Option.some.inj ((codecs.base58Decode_encode 0x05 payload).symm.trans found))).2
  | p2pkh =>
    cases reads with
    | p2pkh found => exact (List.cons.inj (Option.some.inj ((codecs.base58Decode_encode 0x00 payload).symm.trans found))).2
  | p2wsh length =>
    cases reads with
    | p2wsh found =>
      have law := codecs.segwitDecode_encode 0 payload (by decide) (Or.inl length)
      cases law.symm.trans found
      rfl
  | p2wpkh length =>
    cases reads with
    | p2wpkh found =>
      have law := codecs.segwitDecode_encode 0 payload (by decide) (Or.inr length)
      cases law.symm.trans found
      rfl
  | taproot length =>
    cases reads with
    | taproot found =>
      have law := codecs.segwitDecode_encode 1 payload (by decide) (Or.inr length)
      cases law.symm.trans found
      rfl

/-- A script whose address is the parsed one has its bytes. -/
theorem addressOf_of_human {script : Bytes} (parsed : parseAddress codecs text = some (address, human))
    (same : getHumanAddressFromScript codecs script = human) : addressOf script = some address := by
  have reads := reads_of_parseAddress parsed
  rcases encodes_of_script codecs script with ⟨payload, ofScript, encodes⟩ | other | other
  · rw [same] at encodes
    rw [ofScript, reads.eq_of_encodes encodes]
  · rw [← same, other] at reads
    cases reads
  · rw [← same, other] at reads
    cases reads

/-! The range of an address. -/

theorem beBytes_zero_le {bytes : Bytes} (length : bytes.length = 8) : beBytes 8 0 ≤ bytes := by
  have least := not_lt_replicate_zero bytes
  rw [length] at least
  exact not_lt.mp least

theorem le_beBytes_max {bytes : Bytes} (length : bytes.length = 8) : bytes ≤ beBytes 8 (2 ^ 64 - 1) := by
  have greatest := not_replicate_max_lt bytes
  rw [length] at greatest
  exact not_lt.mp greatest

/-- The ranges of both functions lie between the bounds of the whole range. -/
theorem in_range_of_between {lower upper : Bytes} (lowerLength : lower.length = 8) (upperLength : upper.length = 8)
    (between : address ++ lower ≤ key ∧ key < address ++ upper) : InRange address key := by
  obtain ⟨rest, shape, above, below⟩ := between_append_iff.mp between
  exact between_append_iff.mpr ⟨rest, shape, (beBytes_zero_le lowerLength).trans above,
    below.trans_le (le_beBytes_max upperLength)⟩

theorem length_amendKey (payload : Bytes) (timestamp : UInt64) (txhash : Hash) :
    (amendKey payload timestamp txhash).length = payload.length + 8 + 32 := by
  rw [amendKey, List.length_append, List.length_append, length_beBytes, txhash.2]

theorem length_amendValue (blockHash : Hash) (delta : Int64) : (amendValue blockHash delta).length = 40 := by
  rw [amendValue, List.length_append, length_leBytes, blockHash.2]

/-- A stored item in the range of the address, when nothing else continues it. -/
theorem item_of_unshared (run : IndexedBy p history s) (parsed : parseAddress codecs text = some (address, human))
    (unshared : Unshared codecs history address human) (found : s.amends key = some value)
    (inRange : InRange address key) :
    (key.length = address.length + 8 + 32 ∧ value.length = 40) ∧
      ∀ entry, Holding address.length (key, value) entry → OfAddress codecs history human entry := by
  obtain ⟨batch, inHistory, ingested, block, inBatch, ⟨known, inTxs, inKeys⟩, delta, rfl⟩ := run.origin found
  obtain ⟨txout, touched, made⟩ := List.mem_filterMap.mp inKeys
  obtain ⟨payload, ofScript, rfl⟩ := Option.map_eq_some_iff.mp made
  have own : getHumanAddressFromScript codecs txout.script = human := by
    by_contra other
    exact unshared batch inHistory ingested block inBatch known inTxs txout touched other payload ofScript
      (between_append_iff.mp inRange)
  cases ofScript.symm.trans (addressOf_of_human parsed own)
  refine ⟨⟨length_amendKey _ _ _, length_amendValue _ _⟩, ?_⟩
  intro entry holding
  obtain ⟨_, txHash, blockHash, _⟩ := holding_iff.mp holding
  refine ⟨batch, inHistory, block, inBatch, Subtype.ext ?_, known, inTxs, Subtype.ext ?_, txout, touched, own⟩
  · rw [blockHash, amendValue, List.take_left' block.header.hash.2]
  · rw [txHash, amendKey, List.drop_left' (by rw [List.length_append, length_beBytes])]

/-- What an iterator yields in a part of the range of the address. -/
theorem items_of_unshared (run : IndexedBy p history s) (iterates : Iterates s iterate)
    (parsed : parseAddress codecs text = some (address, human)) (unshared : Unshared codecs history address human)
    {lower upper : Bytes} (lowerLength : lower.length = 8) (upperLength : upper.length = 8) :
    ∃ entries, List.Forall₂ (Holding address.length) (iterate (address ++ lower) (address ++ upper)) entries ∧
      ∀ entry ∈ entries, OfAddress codecs history human entry := by
  have items : ∀ item ∈ iterate (address ++ lower) (address ++ upper),
      (item.1.length = address.length + 8 + 32 ∧ item.2.length = 40) ∧
        ∀ entry, Holding address.length item entry → OfAddress codecs history human entry := by
    intro item member
    obtain ⟨found, between⟩ := ((iterates _ _).mem_iff item.1 item.2).mp member
    exact item_of_unshared run parsed unshared found (in_range_of_between lowerLength upperLength between)
  obtain ⟨entries, holdings⟩ := exists_holdings fun item member => (items item member).1
  refine ⟨entries, holdings, fun entry member => ?_⟩
  obtain ⟨item, inItems, holding⟩ := exists_left holdings member
  exact (items item inItems).2 entry holding

/-- A key that another script has written into the range is stored. -/
theorem unshared_of_separated (run : IndexedBy p history s) (separated : Separated p codecs history s iterate address human) :
    Unshared codecs history address human := by
  intro batch inHistory ingested block inBatch known inTxs txout touched other payload ofScript continues
  have made : getAddressFromScriptCopyIntoArenaWithTxhash txout.script known.tx.hash block.timestamp =
      some (amendKey payload block.timestamp known.tx.hash) := by
    rw [getAddressFromScriptCopyIntoArenaWithTxhash, ofScript]
    rfl
  have inKeys : amendKey payload block.timestamp known.tx.hash ∈ batch.flatMap KnownBlock.keys :=
    List.mem_flatMap.mpr ⟨block, inBatch, KnownBlock.mem_keys.mpr
      ⟨known, inTxs, List.mem_filterMap.mpr ⟨txout, touched, made⟩⟩⟩
  exact separated.foreign _ (run.present inHistory ingested inKeys)
    ⟨batch, inHistory, ingested, block, inBatch, known, inTxs, txout, touched, other, made⟩
    (between_append_iff.mpr continues)

/-- The queries for an address return entries of that address alone just when nothing
continues its bytes and, in `dev`, its totals fit. -/
theorem separated_of_indexed (run : IndexedBy p history s) (iterates : Iterates s iterate)
    (parsed : parseAddress codecs text = some (address, human)) :
    Separated p codecs history s iterate address human ↔ Unshared codecs history address human ∧
      (p = .dev → Negatable (addressItems iterate address) ∧ TotalsFit (addressItems iterate address)) := by
  constructor
  · intro separated
    refine ⟨unshared_of_separated run separated, ?_⟩
    rintro rfl
    obtain ⟨data, returned, _⟩ := separated.top 0
    obtain ⟨entries, holdings⟩ := exists_holdings (wellSized_of_topAddressLoop returned)
    exact fits_of_getTopAddressData holdings returned
  · intro ⟨unshared, fits⟩
    refine ⟨?_, ?_, ?_⟩
    · intro topCount
      obtain ⟨entries, holdings, ofAddress⟩ :=
        items_of_unshared run iterates parsed unshared (length_beBytes 8 0) (length_beBytes 8 (2 ^ 64 - 1))
      have returned : ∃ data, getTopAddressData p iterate address topCount = .ok data ∧
          data.transactions = entries.take topCount := by
        cases p with
        | dev =>
          obtain ⟨defined, fit⟩ := fits rfl
          obtain ⟨data, returned, shown, _⟩ := getTopAddressData_ok holdings (fun _ => defined) fit topCount
          exact ⟨data, returned, shown⟩
        | release => exact getTopAddressData_release holdings topCount
      obtain ⟨data, returned, shown⟩ := returned
      refine ⟨data, returned, fun entry member => ?_⟩
      rw [shown] at member
      exact ofAddress entry (List.mem_of_mem_take member)
    · intro fromTimestamp toTimestamp limit
      obtain ⟨entries, holdings, ofAddress⟩ := items_of_unshared run iterates parsed unshared
        (length_beBytes 8 (2 ^ 64 - 1 - toTimestamp.toNat)) (length_beBytes 8 (2 ^ 64 - 1 - fromTimestamp.toNat))
      have returned := @addressEntires_eq address.length limit _ entries holdings [] (Nat.eq_zero_or_pos limit)
      exact ⟨_, returned, fun entry member => ofAddress entry ((isPrefix_shown limit entries).subset member)⟩
    · rintro key _ ⟨batch, inHistory, ingested, block, inBatch, known, inTxs, txout, touched, other, made⟩ inRange
      obtain ⟨payload, ofScript, rfl⟩ := Option.map_eq_some_iff.mp made
      exact unshared batch inHistory ingested block inBatch known inTxs txout touched other payload ofScript
        (between_append_iff.mp inRange)

/-! Addresses in hexadecimal. -/

def hexDigit (n : Nat) : Char :=
  Char.ofNat (if n < 10 then 48 + n else 87 + n)

/-- Both cases are accepted. -/
def hexValue (c : Char) : Option Nat :=
  if 48 ≤ c.toNat ∧ c.toNat ≤ 57 then some (c.toNat - 48)
  else if 97 ≤ c.toNat ∧ c.toNat ≤ 102 then some (c.toNat - 87)
  else if 65 ≤ c.toNat ∧ c.toNat ≤ 70 then some (c.toNat - 55)
  else none

def hexPairs : List Char → Option Bytes
  | [] => some []
  | [_] => none
  | high :: low :: rest => do
    let high ← hexValue high
    let low ← hexValue low
    let bytes ← hexPairs rest
    pure (UInt8.ofNat (high * 16 + low) :: bytes)

def hexEncode (bytes : Bytes) : String :=
  String.ofList (bytes.flatMap fun byte => [hexDigit (byte.toNat / 16), hexDigit (byte.toNat % 16)])

def hexDecode (text : String) : Option Bytes :=
  hexPairs text.toList

theorem hexValue_hexDigit : ∀ n < 16, hexValue (hexDigit n) = some n := by decide

theorem hexDecode_hexEncode (bytes : Bytes) : hexDecode (hexEncode bytes) = some bytes := by
  rw [hexDecode, hexEncode, String.toList_ofList]
  induction bytes with
  | nil => rfl
  | cons byte bytes ih =>
    have small : byte.toNat < 256 := byte.toNat_lt
    have value : UInt8.ofNat (byte.toNat / 16 * 16 + byte.toNat % 16) = byte := by
      rw [Nat.div_add_mod', UInt8.ofNat_toNat]
    rw [List.flatMap_cons, List.cons_append, List.cons_append, List.nil_append, hexPairs, hexValue_hexDigit _ (by omega),
      hexValue_hexDigit _ (by omega), ih]
    simp only [Option.bind_eq_bind, Option.bind_some, value, Option.pure_def]

/-- Hexadecimal text, which also stands in for the other two encodings. -/
def hexCodecs : AddressCodecs where
  hexEncode := hexEncode
  hexDecode := hexDecode
  base58Encode := fun version bytes => hexEncode (version :: bytes)
  base58Decode := fun _ text => hexDecode text
  segwitEncode := fun version bytes => hexEncode (UInt8.ofNat version :: bytes)
  segwitDecode := fun text => (hexDecode text).bind fun bytes =>
    bytes.head?.map fun version => (true, version.toNat, bytes.tail)
  hexDecode_encode := hexDecode_hexEncode
  base58Decode_encode := fun version bytes => hexDecode_hexEncode (version :: bytes)
  segwitDecode_encode := fun version bytes small _ => by
    have same : (UInt8.ofNat version).toNat = version := by
      rw [UInt8.toNat_ofNat']
      omega
    rw [hexDecode_hexEncode, Option.bind_some, List.head?_cons, Option.map_some, List.tail_cons, same]

/-- A compressed public key. -/
def shortKey : Bytes := 0x02 :: List.replicate 32 0x11

/-- A block whose coinbase transaction pays to one script. -/
def payingBlock (header : BlockHeaderOwned) (script : Bytes) : KnownBlock where
  header := header
  txs := [{
    tx := ⟨1, 0, [⟨emptyHash, 0xFFFFFFFF, 0, []⟩], [⟨50, script⟩], none, ByteArr.fill 32 7, ByteArr.fill 32 7⟩
    dependencies := []
    count := rfl }]

theorem parseAddress_shortKey :
    parseAddress hexCodecs (hexEncode shortKey) = some (shortKey, .p2pkShort (hexEncode shortKey)) := by
  have decoded : hexCodecs.hexDecode (hexEncode shortKey) = some shortKey := hexDecode_hexEncode shortKey
  rw [parseAddress, decoded]
  rfl

def shortScript : Bytes := 0x21 :: (shortKey ++ [opChecksig])

/-- A full public key that begins with the bytes of the compressed one. -/
def fullScript : Bytes := 0x41 :: (shortKey ++ List.replicate 32 0 ++ [opChecksig])

/-- The only output of the block pays to the script. -/
theorem touched_payingBlock {header : BlockHeaderOwned} {script : Bytes} {known : KnownTx} {txout : TxOut}
    (inTxs : known ∈ (payingBlock header script).txs) (touched : txout ∈ known.touched) : txout.script = script := by
  cases List.mem_singleton.mp inTxs
  cases List.mem_singleton.mp touched
  rfl

theorem unshared_shortKey (header : BlockHeaderOwned) :
    Unshared hexCodecs [[payingBlock header shortScript]] shortKey (.p2pkShort (hexEncode shortKey)) := by
  intro batch inHistory _ block inBatch known inTxs txout touched other
  cases List.mem_singleton.mp inHistory
  cases List.mem_singleton.mp inBatch
  rw [touched_payingBlock inTxs touched] at other
  exact absurd rfl other

theorem separated_of_indexed_shortKey :
    ∃ s iterate, IndexedBy .release [[payingBlock genesisHeader shortScript]] s ∧ Iterates s iterate ∧
      Separated .release hexCodecs [[payingBlock genesisHeader shortScript]] s iterate shortKey
        (.p2pkShort (hexEncode shortKey)) := by
  obtain ⟨s, run⟩ := exists_indexedBy [[payingBlock genesisHeader shortScript]]
  obtain ⟨iterate, iterates⟩ := run.exists_iterates
  refine ⟨s, iterate, run, iterates, ?_⟩
  exact (separated_of_indexed run iterates parseAddress_shortKey).mpr ⟨unshared_shortKey genesisHeader, nofun⟩

/-- The full public key stops the query for the compressed one. -/
theorem separated_of_indexed_fails :
    ∃ s iterate, IndexedBy .release [[payingBlock genesisHeader fullScript]] s ∧ Iterates s iterate ∧
      parseAddress hexCodecs (hexEncode shortKey) = some (shortKey, .p2pkShort (hexEncode shortKey)) ∧
      (∀ data, getTopAddressData .release iterate shortKey 50 ≠ .ok data) ∧
      ¬ Separated .release hexCodecs [[payingBlock genesisHeader fullScript]] s iterate shortKey
        (.p2pkShort (hexEncode shortKey)) := by
  obtain ⟨s, run⟩ := exists_indexedBy [[payingBlock genesisHeader fullScript]]
  obtain ⟨iterate, iterates⟩ := run.exists_iterates
  let rest : Bytes := List.replicate 32 0 ++ beBytes 8 (2 ^ 64 - 1 - 1231006505) ++ (ByteArr.fill 32 7).1
  have keys : (payingBlock genesisHeader fullScript).keys = [shortKey ++ rest] := by decide
  have present : s.amends (shortKey ++ rest) ≠ none := by
    refine run.present (List.mem_singleton.mpr rfl) ?_ ?_
    · rw [Ingested, List.flatMap_singleton, keys]
      exact List.nodup_singleton _
    · rw [List.flatMap_singleton, keys]
      exact List.mem_singleton.mpr rfl
  have inRange : InRange shortKey (shortKey ++ rest) := between_append_iff.mpr ⟨rest, rfl, by decide, by decide⟩
  have stops : ∀ data, getTopAddressData .release iterate shortKey 50 ≠ .ok data := by
    intro data returned
    obtain ⟨value, found⟩ := Option.ne_none_iff_exists'.mp present
    have item := ((iterates _ _).mem_iff (shortKey ++ rest) value).mpr ⟨found, inRange⟩
    have length : (shortKey ++ rest).length = shortKey.length + 8 + 32 := (wellSized_of_topAddressLoop returned _ item).1
    exact absurd length (by decide)
  refine ⟨s, iterate, run, iterates, parseAddress_shortKey, stops, fun separated => ?_⟩
  obtain ⟨data, returned, _⟩ := separated.top 50
  exact stops data returned

end Bitlens

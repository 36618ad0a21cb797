import Bitlens.AddressSeparation

namespace Bitlens
open Lib

/-- `Address::fmt`. -/
def Address.fmt : Address → String
  | .p2pkFull value | .p2pkShort value | .p2pkh value | .p2sh value | .p2wsh value | .p2wpkh value | .taproot value => value
  | .opReturn => "OP_RETURN"
  | .unknown => "Unknown"
  | .coinbase => "Coinbase"

/-- No decoder that is tried before its own accepts the text of the address. -/
def AddressCodecs.Apart (codecs : AddressCodecs) : Address → Prop
  | .p2pkh value => codecs.hexDecode value = none
  | .p2sh value => codecs.hexDecode value = none ∧ codecs.base58Decode 0x00 value = none
  | .p2wsh value | .p2wpkh value | .taproot value =>
    codecs.hexDecode value = none ∧ codecs.base58Decode 0x00 value = none ∧ codecs.base58Decode 0x05 value = none
  | _ => True

variable {codecs : AddressCodecs} {script payload : Bytes} {human : Address}

theorem parseAddress_p2pkh (apart : codecs.Apart (.p2pkh (codecs.base58Encode 0x00 payload)))
    (length : payload.length = 20) : parseAddress codecs (codecs.base58Encode 0x00 payload) =
      some (payload, .p2pkh (codecs.base58Encode 0x00 payload)) := by
  have notHex : codecs.hexDecode (codecs.base58Encode 0x00 payload) = none := apart
  have whole : (0x00 :: payload).length = 21 := by rw [List.length_cons, length]
  rw [parseAddress, notHex, codecs.base58Decode_encode]
  dsimp only
  rw [if_pos ⟨whole, rfl⟩, List.tail_cons]

theorem parseAddress_p2sh (apart : codecs.Apart (.p2sh (codecs.base58Encode 0x05 payload)))
    (length : payload.length = 20) : parseAddress codecs (codecs.base58Encode 0x05 payload) =
      some (payload, .p2sh (codecs.base58Encode 0x05 payload)) := by
  obtain ⟨notHex, notKey⟩ := apart
  have whole : (0x05 :: payload).length = 21 := by rw [List.length_cons, length]
  rw [parseAddress, notHex, notKey, codecs.base58Decode_encode]
  dsimp only
  rw [if_pos ⟨whole, rfl⟩, List.tail_cons]

theorem parseAddress_segwit {version : Nat} (apart : codecs.Apart (.taproot (codecs.segwitEncode version payload)))
    (small : version ≤ 1) (length : payload.length = 20 ∨ payload.length = 32) :
    parseAddress codecs (codecs.segwitEncode version payload) =
      if version = 0 then
        if payload.length = 20 then some (payload, .p2wsh (codecs.segwitEncode version payload))
        else if payload.length = 32 then some (payload, .p2wpkh (codecs.segwitEncode version payload))
        else none
      else if version = 1 ∧ payload.length = 32 then some (payload, .taproot (codecs.segwitEncode version payload))
      else none := by
  obtain ⟨notHex, notKey, notScript⟩ := apart
  rw [parseAddress, notHex, notKey, notScript, codecs.segwitDecode_encode version payload small length]
  rfl

/-- The text of an address is read back as the address with its bytes. -/
theorem HoldsAddress.parses (holds : HoldsAddress codecs script payload human) (apart : codecs.Apart human) :
    parseAddress codecs human.fmt = some (payload, human) := by
  cases holds with
  | p2pkFull found =>
    have length := length_of_payloadOf found
    rw [Address.fmt, parseAddress, codecs.hexDecode_encode]
    dsimp only
    rw [if_pos length]
  | p2pkShort found =>
    have length := length_of_payloadOf found
    rw [Address.fmt, parseAddress, codecs.hexDecode_encode]
    dsimp only
    rw [if_neg (by omega), if_pos length]
  | p2sh found =>
    have length := length_of_payloadOf found
    rw [Address.fmt, parseAddress_p2sh apart length]
  | p2pkh found =>
    have length := length_of_payloadOf found
    rw [Address.fmt, parseAddress_p2pkh apart length]
  | p2wsh found =>
    have length := length_of_payloadOf found
    rw [Address.fmt, parseAddress_segwit apart (Nat.zero_le 1) (Or.inl length), if_pos rfl, if_pos length]
  | p2wpkh found =>
    have length := length_of_payloadOf found
    rw [Address.fmt, parseAddress_segwit apart (Nat.zero_le 1) (Or.inr length), if_pos rfl, if_neg (by omega), if_pos length]
  | taproot found =>
    have length := length_of_payloadOf found
    rw [Address.fmt, parseAddress_segwit apart le_rfl (Or.inr length), if_neg Nat.one_ne_zero, if_pos ⟨rfl, length⟩]

theorem HoldsAddress.isAddress (holds : HoldsAddress codecs script payload human) : human ≠ .opReturn ∧ human ≠ .unknown := by
  cases holds <;> exact ⟨nofun, nofun⟩

/-- The three classifiers agree: a script has address bytes exactly if it has an address as
text, and the text is parsed to the same address and to the bytes that begin its keys. -/
theorem parseAddress_of_script (script : Bytes) (apart : codecs.Apart (getHumanAddressFromScript codecs script)) :
    ((getHumanAddressFromScript codecs script ≠ .opReturn ∧ getHumanAddressFromScript codecs script ≠ .unknown) ↔
      scriptHasAddress script = true) ∧
      (scriptHasAddress script = true → ∃ payload,
        parseAddress codecs (getHumanAddressFromScript codecs script).fmt =
            some (payload, getHumanAddressFromScript codecs script) ∧
          ∀ txhash timestamp, getAddressFromScriptCopyIntoArenaWithTxhash script txhash timestamp =
            some (payload ++ beBytes 8 (2 ^ 64 - 1 - timestamp.toNat) ++ txhash.1)) := by
  rw [scriptHasAddress_iff]
  rcases address_of_script codecs script with ⟨payload, found, holds⟩ | ⟨nothing, other⟩
  · refine ⟨iff_of_true holds.isAddress (by rw [found]; exact Option.some_ne_none payload), fun _ => ?_⟩
    refine ⟨payload, holds.parses apart, fun txhash timestamp => ?_⟩
    rw [getAddressFromScriptCopyIntoArenaWithTxhash, found]
    rfl
  · refine ⟨iff_of_false ?_ (not_not.mpr nothing), fun some => absurd nothing some⟩
    rintro ⟨notReturn, notUnknown⟩
    exact other.elim notReturn notUnknown

/-! Codecs that keep apart by a leading letter. -/

/-- The text of the bytes behind a mark that no hexadecimal text has. -/
def markedText (mark : Char) (bytes : Bytes) : String :=
  String.ofList (mark :: (hexEncode bytes).toList)

def unmarkText (mark : Char) (text : String) : Option Bytes :=
  match text.toList with
  | [] => none
  | c :: rest => if c = mark then hexDecode (String.ofList rest) else none

theorem unmarkText_markedText (mark other : Char) (bytes : Bytes) :
    unmarkText mark (markedText other bytes) = if other = mark then some bytes else none := by
  rw [unmarkText, markedText, String.toList_ofList]
  dsimp only
  rw [String.ofList_toList, hexDecode_hexEncode]

theorem hexDecode_markedText {mark : Char} (bytes : Bytes) (outside : hexValue mark = none) :
    hexDecode (markedText mark bytes) = none := by
  rw [hexDecode, markedText, String.toList_ofList]
  cases (hexEncode bytes).toList with
  | nil => rfl
  | cons c rest =>
    rw [hexPairs, outside]
    rfl

theorem base58_markedText (version : UInt8) (bytes : Bytes) :
    ((unmarkText 'z' (markedText 'z' (version :: bytes))).filter fun bytes => bytes.head? = some version) =
      some (version :: bytes) := by
  rw [unmarkText_markedText, if_pos rfl, Option.filter_some, List.head?_cons, if_pos (decide_eq_true rfl)]

theorem segwit_markedText (version : Nat) (bytes : Bytes) (small : version ≤ 1) :
    ((unmarkText 'q' (markedText 'q' (UInt8.ofNat version :: bytes))).bind fun bytes =>
      bytes.head?.map fun version => (true, version.toNat, bytes.tail)) = some (true, version, bytes) := by
  have same : (UInt8.ofNat version).toNat = version := by
    rw [UInt8.toNat_ofNat']
    omega
  rw [unmarkText_markedText, if_pos rfl, Option.bind_some, List.head?_cons, Option.map_some, List.tail_cons, same]

/-- Hexadecimal text as it is, and marked texts for the other two encodings. -/
def markedCodecs : AddressCodecs where
  hexEncode := hexEncode
  hexDecode := hexDecode
  base58Encode := fun version bytes => markedText 'z' (version :: bytes)
  base58Decode := fun version text => (unmarkText 'z' text).filter fun bytes => bytes.head? = some version
  segwitEncode := fun version bytes => markedText 'q' (UInt8.ofNat version :: bytes)
  segwitDecode := fun text => (unmarkText 'q' text).bind fun bytes =>
    bytes.head?.map fun version => (true, version.toNat, bytes.tail)
  hexDecode_encode := hexDecode_hexEncode
  base58Decode_encode := base58_markedText
  segwitDecode_encode := by
    intro version bytes small _
    exact segwit_markedText version bytes small

/-- A payment to the hash of a script. -/
def scriptHashScript : Bytes := [opHash160, 0x14] ++ List.replicate 20 7 ++ [opEqual]

theorem scriptHashScript_apart : markedCodecs.Apart (getHumanAddressFromScript markedCodecs scriptHashScript) := by
  refine ⟨hexDecode_markedText _ (by decide), ?_⟩
  dsimp only [markedCodecs]
  rw [unmarkText_markedText, if_pos rfl, Option.filter_some, List.head?_cons]
  exact if_neg (by decide)

theorem parseAddress_of_script_scriptHash : scriptHasAddress scriptHashScript = true ∧ ∃ payload,
    parseAddress markedCodecs (getHumanAddressFromScript markedCodecs scriptHashScript).fmt =
        some (payload, getHumanAddressFromScript markedCodecs scriptHashScript) ∧
      ∀ txhash timestamp, getAddressFromScriptCopyIntoArenaWithTxhash scriptHashScript txhash timestamp =
        some (payload ++ beBytes 8 (2 ^ 64 - 1 - timestamp.toNat) ++ txhash.1) := by
  have holds : scriptHasAddress scriptHashScript = true := by decide
  exact ⟨holds, (parseAddress_of_script scriptHashScript scriptHashScript_apart).2 holds⟩

end Bitlens

import Bitlens.Encoders
import Bitlens.Payload

namespace Bitlens
open Lib

def serializeNetAddrShort (v : NetAddrShort) : Bytes :=
  leBytes 8 v.services.toNat ++ v.addr.1 ++ beBytes 2 v.port.toNat

def serializeNetAddr (v : NetAddr) : Bytes :=
  leBytes 4 v.time.toNat ++ leBytes 8 v.services.toNat ++ v.addr.1 ++ beBytes 2 v.port.toNat

/-- `NetworkId::to_u8`. -/
def NetworkId.toU8 : NetworkId → UInt8
  | error => 0
  | ipv4 => 1
  | ipv6 => 2
  | onionv2 => 3
  | onionv3 => 4
  | i2p => 5
  | cjdns => 6
  | yggDrasil => 7

def serializeNetAddrV2 (v : NetAddrV2) : Bytes :=
  leBytes 4 v.time.toNat ++ serializeVarint v.services ++ [v.networkId.toU8] ++ serializeVarstr v.address ++
    beBytes 2 v.port.toNat

/-- `InventoryVectorType::to_u32`. -/
def InventoryVectorType.toU32 : InventoryVectorType → UInt32
  | error => 0
  | tx => 1
  | block => 2
  | filteredBlock => 3
  | cmpctBlock => 4
  | witnessTx => 0x40000001
  | witnessBlock => 0x40000002
  | filteredWitnessBlock => 0x40000003

def serializeInventoryVector (v : InventoryVector) : Bytes :=
  leBytes 4 v.invType.toU32.toNat ++ v.hash.1

/-- `bool as u8`. -/
def boolByte (b : Bool) : UInt8 :=
  if b then 1 else 0

def serializeVersion (v : Version) : Bytes :=
  leBytes 4 v.version.toNat ++ leBytes 8 v.services.toNat ++ leBytes 8 v.timestamp.toNat ++
    serializeNetAddrShort v.addrrecv ++ serializeNetAddrShort v.addrfrom ++ leBytes 8 v.nonce.toNat ++
    serializeVarstr v.userAgent ++ leBytes 4 v.startHeight.toNat ++
    if v.version ≥ 70001 then [boolByte v.announceRelayedTransactions] else []

def serializeGetHeaders (v : GetHeaders) : Bytes :=
  leBytes 4 v.version.toNat ++ serializeArray (fun hash => hash.1) v.blockLocator ++ v.hashStop.1

def serializeNonce (nonce : UInt64) : Bytes :=
  leBytes 8 nonce.toNat

inductive PayloadToSend where
  | ping (nonce : UInt64)
  | inv (inner : List InventoryVector)
  | version (v : Version)
  | verAck
  | addr (inner : List NetAddr)
  | addrV2 (inner : List NetAddrV2)
  | getAddr
  | pong (nonce : UInt64)
  | sendHeaders
  | sendAddrV2
  | tx (v : Tx)
  | block (v : Block)
  | getData (inner : List InventoryVector)
  | headers (inner : List BlockHeaderOwned)
  | getHeaders (v : GetHeaders)
  | notFound (inner : List InventoryVector)

def getaddrCommand : Bytes := command ['g', 'e', 't', 'a', 'd', 'd', 'r']
def getdataCommand : Bytes := command ['g', 'e', 't', 'd', 'a', 't', 'a']

namespace PayloadToSend

def serialize : PayloadToSend → Bytes
  | version v => serializeVersion v
  | verAck => []
  | ping nonce => serializeNonce nonce
  | pong nonce => serializeNonce nonce
  | sendHeaders => []
  | sendAddrV2 => []
  | tx v => serializeTx v
  | block v => serializeBlock v
  | addr inner => serializeArray serializeNetAddr inner
  | addrV2 inner => serializeArray serializeNetAddrV2 inner
  | getAddr => []
  | getData inner => serializeArray serializeInventoryVector inner
  | inv inner => serializeArray serializeInventoryVector inner
  | headers inner => serializeArray serializeBlockHeader inner
  | getHeaders v => serializeGetHeaders v
  | notFound inner => serializeArray serializeInventoryVector inner

def command : PayloadToSend → ByteArr 12
  | version _ => ⟨versionCommand, rfl⟩
  | verAck => ⟨verackCommand, rfl⟩
  | ping _ => ⟨pingCommand, rfl⟩
  | pong _ => ⟨pongCommand, rfl⟩
  | sendHeaders => ⟨sendheadersCommand, rfl⟩
  | sendAddrV2 => ⟨sendaddrv2Command, rfl⟩
  | tx _ => ⟨txCommand, rfl⟩
  | block _ => ⟨blockCommand, rfl⟩
  | addr _ => ⟨addrCommand, rfl⟩
  | addrV2 _ => ⟨addrv2Command, rfl⟩
  | getAddr => ⟨getaddrCommand, rfl⟩
  | getData _ => ⟨getdataCommand, rfl⟩
  | inv _ => ⟨invCommand, rfl⟩
  | headers _ => ⟨headersCommand, rfl⟩
  | getHeaders _ => ⟨getheadersCommand, rfl⟩
  | notFound _ => ⟨notfoundCommand, rfl⟩

end PayloadToSend

/-- The conversions from the borrowed types to the owned ones. -/
def ReceivedPayload.toOwned : ReceivedPayload → PayloadToSend
  | ping nonce => .ping nonce
  | inv inner => .inv inner
  | version v => .version v
  | verAck => .verAck
  | addr inner => .addr inner
  | addrV2 inner => .addrV2 inner
  | getAddr => .getAddr
  | pong nonce => .pong nonce
  | sendHeaders => .sendHeaders
  | sendAddrV2 => .sendAddrV2
  | tx v => .tx v
  | block v => .block v
  | getData inner => .getData inner
  | headers inner => .headers inner
  | getHeaders v => .getHeaders v
  | notFound inner => .notFound inner

/-- The bytes of a header that its hash is computed from. -/
def hashedBytes (header : BlockHeaderOwned) : Bytes :=
  leBytes 4 header.version.toNat ++ header.parent.1 ++ header.merkleRoot.1 ++ leBytes 4 header.timestamp.toNat ++
    leBytes 4 header.bits.toNat ++ leBytes 4 header.nonce.toNat

/-- What the bytes of the message can carry: an old version message has no flag, and a
header has the hash of its bytes and enough work. -/
def PayloadToSend.Carried (sha256 : Bytes → Hash) : PayloadToSend → Prop
  | version v => v.version ≥ 70001 ∨ v.announceRelayedTransactions = false
  | headers inner => ∀ header ∈ inner, header.hash = digestTwice sha256 (hashedBytes header) ∧ isValid header.hash header.bits
  | _ => True

/-- The message other than a transaction or a block. -/
def PayloadToSend.Plain : PayloadToSend → Prop
  | tx _ => False
  | block _ => False
  | _ => True

/-- `deserialize_payload` has an arm for the command of the message. -/
def PayloadToSend.Dispatched : PayloadToSend → Prop
  | getAddr => False
  | getData _ => False
  | _ => True

/-- What was sent is received: the same kind of message with the same contents. -/
def Received (sha256 : Bytes → Hash) (arena : Arena) (consumed : Nat) (p : PayloadToSend) : Prop :=
  ∃ received used,
    deserializePayload (m := Parser) sha256 p.serialize (shorthash sha256 p.serialize) p.command arena consumed =
      .ok (some received, used) ∧ received.toOwned = p

end Bitlens

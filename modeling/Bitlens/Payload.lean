import Bitlens.Decoders

namespace Bitlens
open Lib

variable {m : Type → Type} [Decoding m]

structure NetAddrShort where
  services : UInt64
  addr : ByteArr 16
  port : UInt16

structure NetAddr where
  services : UInt64
  addr : ByteArr 16
  time : UInt32
  port : UInt16

inductive NetworkId where
  | error | ipv4 | ipv6 | onionv2 | onionv3 | i2p | cjdns | yggDrasil

structure NetAddrV2 where
  address : Bytes
  services : UInt64
  time : UInt32
  port : UInt16
  networkId : NetworkId

inductive InventoryVectorType where
  | error | tx | block | filteredBlock | cmpctBlock | witnessTx | witnessBlock | filteredWitnessBlock

structure InventoryVector where
  invType : InventoryVectorType
  hash : Hash

structure Version where
  services : UInt64
  timestamp : UInt64
  addrrecv : NetAddrShort
  addrfrom : NetAddrShort
  nonce : UInt64
  userAgent : Bytes
  startHeight : UInt32
  version : UInt32
  announceRelayedTransactions : Bool

structure GetHeaders where
  version : UInt32
  blockLocator : List Hash
  hashStop : Hash

def deserializeNetAddrShort (buffer : Bytes) : m (NetAddrShort × Nat) := do
  let b ← orBail (getRange buffer 8 24)
  let services ← getU64Le buffer 0
  let addr ← Decoding.unwrap (ByteArr.ofBytes 16 b)
  let port ← getU16 buffer 24
  pure (⟨services, addr, port⟩, 26)

def deserializeNetAddr (buffer : Bytes) : m (NetAddr × Nat) := do
  let address ← orBail (getRange buffer 12 28)
  let time ← getU32Le buffer 0
  let addr ← Decoding.unwrap (ByteArr.ofBytes 16 address)
  let services ← getU64Le buffer 4
  let port ← getU16 buffer 28
  pure (⟨services, addr, time, port⟩, 30)

def NetworkId.fromU8 (byte : UInt8) : Option NetworkId :=
  [error, ipv4, ipv6, onionv2, onionv3, i2p, cjdns, yggDrasil][byte.toNat]?

def deserializeNetAddrV2 (buffer : Bytes) : m (NetAddrV2 × Nat) := do
  let time ← getU32Le buffer 0
  let rest ← withOffset buffer 4
  let (services, offset) ← deserializeVarint rest
  let offset ← add offset 4
  let networkId ← orBail buffer[offset]?
  let networkId ← orBail (NetworkId.fromU8 networkId)
  let offset ← add offset 1
  let rest ← withOffset buffer offset
  let (address, offsetDelta) ← deserializeVarstr rest
  let offset ← add offset offsetDelta
  let port ← getU16 buffer offset
  let consumed ← add offset 2
  pure (⟨address, services, time, port, networkId⟩, consumed)

def InventoryVectorType.fromU32 (rawType : UInt32) : Option InventoryVectorType :=
  if rawType = 0 then some .error
  else if rawType = 1 then some .tx
  else if rawType = 2 then some .block
  else if rawType = 3 then some .filteredBlock
  else if rawType = 4 then some .cmpctBlock
  else if rawType = 0x40000001 then some .witnessTx
  else if rawType = 0x40000002 then some .witnessBlock
  else if rawType = 0x40000003 then some .filteredWitnessBlock
  else none

def deserializeInventoryVector (buffer : Bytes) : m (InventoryVector × Nat) := do
  let rawType ← getU32Le buffer 0
  let invType ← orBail (InventoryVectorType.fromU32 rawType)
  let hash ← getHash buffer 4
  pure (⟨invType, hash⟩, 36)

/-- The byte behind a version message, where its version has one. -/
def announcedByte (version : UInt32) (buffer : Bytes) (offset : Nat) : m (Option UInt8) :=
  if version ≥ 70001 then do
    let position ← add 84 offset
    pure buffer[position]?
  else pure none

def deserializeVersion (buffer : Bytes) : m (Version × Nat) := do
  let version ← getU32Le buffer 0
  let services ← getU64Le buffer 4
  let timestamp ← getU64Le buffer 12
  let rest ← withOffset buffer 20
  let (addrrecv, _) ← deserializeNetAddrShort rest
  let rest ← withOffset buffer 46
  let (addrfrom, _) ← deserializeNetAddrShort rest
  let nonce ← getU64Le buffer 72
  let rest ← withOffset buffer 80
  let (ua, offset) ← deserializeVarstr rest
  let position ← add 80 offset
  let startHeight ← getU32Le buffer position
  let announced ← announcedByte version buffer offset
  let consumed ← add offset (if announced.isSome then 85 else 84)
  pure (⟨services, timestamp, addrrecv, addrfrom, nonce, ua, startHeight, version, announced.any (· ≠ 0)⟩, consumed)

def deserializeLocator (buffer : Bytes) : Nat → Nat → m (List Hash × Nat)
  | 0, offset => pure ([], offset)
  | remaining + 1, offset => do
    let hash ← getHash buffer offset
    let offset ← add offset 32
    let (hashes, offset) ← deserializeLocator buffer remaining offset
    pure (hash :: hashes, offset)

def deserializeGetHeaders (buffer : Bytes) : m (GetHeaders × Nat) := do
  let version ← getU32Le buffer 0
  let rest ← withOffset buffer 4
  let (length, offset) ← deserializeVarint rest
  let offset ← add offset 4
  tryAllocArray referenceLayout length.toNat
  let (blockLocator, offset) ← deserializeLocator buffer length.toNat offset
  let hashStop ← getHash buffer offset
  let consumed ← add offset 32
  pure (⟨version, blockLocator, hashStop⟩, consumed)

/-- `Ping` and `Pong`. -/
def deserializeNonce (buffer : Bytes) : m (UInt64 × Nat) := do
  let nonce ← getU64Le buffer 0
  pure (nonce, 8)

/-- `VerAck`, `SendAddrV2` and `SendHeaders`. -/
def deserializeEmpty (_ : Bytes) : m (Unit × Nat) :=
  pure ((), 0)

inductive ReceivedPayload where
  | ping (nonce : UInt64)
  | inv (inner : List InventoryVector)
  | version (v : Version)
  | verAck
  | addr (inner : List NetAddr)
  | addrV2 (inner : List NetAddrV2)
  | getAddr
  | pong (nonce : UInt64)
  | sendHeaders
  | sendAddrV2
  | tx (v : Tx)
  | block (v : Block)
  | getData (inner : List InventoryVector)
  | headers (inner : List BlockHeaderOwned)
  | getHeaders (v : GetHeaders)
  | notFound (inner : List InventoryVector)

def command (name : List Char) : Bytes :=
  name.map (fun c => UInt8.ofNat c.toNat) ++ List.replicate (12 - name.length) 0

def versionCommand : Bytes := command ['v', 'e', 'r', 's', 'i', 'o', 'n']
def verackCommand : Bytes := command ['v', 'e', 'r', 'a', 'c', 'k']
def pingCommand : Bytes := command ['p', 'i', 'n', 'g']
def pongCommand : Bytes := command ['p', 'o', 'n', 'g']
def sendaddrv2Command : Bytes := command ['s', 'e', 'n', 'd', 'a', 'd', 'd', 'r', 'v', '2']
def sendheadersCommand : Bytes := command ['s', 'e', 'n', 'd', 'h', 'e', 'a', 'd', 'e', 'r', 's']
def txCommand : Bytes := command ['t', 'x']
def blockCommand : Bytes := command ['b', 'l', 'o', 'c', 'k']
def addrCommand : Bytes := command ['a', 'd', 'd', 'r']
def addrv2Command : Bytes := command ['a', 'd', 'd', 'r', 'v', '2']
def invCommand : Bytes := command ['i', 'n', 'v']
def headersCommand : Bytes := command ['h', 'e', 'a', 'd', 'e', 'r', 's']
def getheadersCommand : Bytes := command ['g', 'e', 't', 'h', 'e', 'a', 'd', 'e', 'r', 's']
def notfoundCommand : Bytes := command ['n', 'o', 't', 'f', 'o', 'u', 'n', 'd']

/-- One arm of `deserialize_payload`: allocate the message, then fill it. -/
def deserializeInto {α : Type} (layout : Layout) (item : Bytes → m (α × Nat)) (buffer : Bytes)
    (received : α → ReceivedPayload) : m (Option ReceivedPayload) := do
  tryAlloc layout
  let (v, _) ← item buffer
  pure (some (received v))

/-- The first four bytes of the double hash. -/
def shorthash (sha256 : Bytes → Hash) (buffer : Bytes) : UInt32 :=
  UInt32.ofNat (leNat ((digestTwice sha256 buffer).1.take 4))

def deserializePayload (sha256 : Bytes → Hash) (buffer : Bytes) (checksum : UInt32) (command : ByteArr 12) :
    m (Option ReceivedPayload) := do
  ensure (shorthash sha256 buffer = checksum)
  if command.1 = versionCommand then deserializeInto versionLayout deserializeVersion buffer .version
  else if command.1 = verackCommand then deserializeInto emptyLayout deserializeEmpty buffer fun _ => .verAck
  else if command.1 = pingCommand then deserializeInto nonceLayout deserializeNonce buffer .ping
  else if command.1 = pongCommand then deserializeInto nonceLayout deserializeNonce buffer .pong
  else if command.1 = sendaddrv2Command then deserializeInto emptyLayout deserializeEmpty buffer fun _ => .sendAddrV2
  else if command.1 = sendheadersCommand then deserializeInto emptyLayout deserializeEmpty buffer fun _ => .sendHeaders
  else if command.1 = txCommand then deserializeInto txLayout (deserializeTx sha256) buffer .tx
  else if command.1 = blockCommand then deserializeInto blockLayout (deserializeBlock sha256) buffer .block
  else if command.1 = addrCommand then
    deserializeInto sliceLayout (deserializeArray netAddrLayout deserializeNetAddr) buffer .addr
  else if command.1 = addrv2Command then
    deserializeInto sliceLayout (deserializeArray netAddrV2Layout deserializeNetAddrV2) buffer .addrV2
  else if command.1 = invCommand then
    deserializeInto sliceLayout (deserializeArray inventoryVectorLayout deserializeInventoryVector) buffer .inv
  else if command.1 = headersCommand then
    deserializeInto sliceLayout (deserializeArray headerLayout (deserializeBlockHeader sha256)) buffer .headers
  else if command.1 = getheadersCommand then deserializeInto getHeadersLayout deserializeGetHeaders buffer .getHeaders
  else if command.1 = notfoundCommand then
    deserializeInto sliceLayout (deserializeArray inventoryVectorLayout deserializeInventoryVector) buffer .notFound
  else pure none

def maxPacketSize : Nat := 4 * 1024 * 1024

def smallArenaSize : Nat := 8 * 1024

theorem smallArenaSize_inBounds : 4096 + smallArenaSize < 2 ^ 64 := by decide

/-- The capacity of the arena that `read_packet` picks for a payload of some length. -/
def arenaSize (length : Nat) : Nat :=
  if length > smallArenaSize / 2 then maxPacketSize else smallArenaSize

/-- The part of `read_packet` behind the header: the buffer for the payload is the
first block of the arena. -/
def readPayload (sha256 : Bytes → Hash) (payload : Bytes) (checksum : UInt32) (command : ByteArr 12) :
    m (Option ReceivedPayload) := do
  tryAllocArray ⟨1, 1⟩ payload.length
  deserializePayload sha256 payload checksum command

end Bitlens

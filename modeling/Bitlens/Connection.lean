import Bitlens.Crawl
import Bitlens.PayloadToSend

namespace Bitlens
open Lib

structure PacketHeader where
  magic : UInt32
  command : ByteArr 12
  length : UInt32
  checksum : UInt32

/-- A packet with the buffer that its payload was read into. -/
structure Packet where
  header : PacketHeader
  buffer : Bytes
  payload : Option ReceivedPayload

/-! Reading from the stream, which ends where the peer closes it. -/

def readExact (n : Nat) (stream : Bytes) : Except Error (ByteArr n × Bytes) :=
  if inside : n ≤ stream.length then .ok (⟨stream.take n, List.length_take_of_le inside⟩, stream.drop n)
  else .error (.message "early eof")

def readU32Le (stream : Bytes) : Except Error (UInt32 × Bytes) :=
  if 4 ≤ stream.length then .ok (UInt32.ofNat (leNat (stream.take 4)), stream.drop 4)
  else .error (.message "unexpected end of file")

def readHeader (stream : Bytes) : Except Error (PacketHeader × Bytes) := do
  let (magic, stream) ← readU32Le stream
  let (command, stream) ← readExact 12 stream
  let (length, stream) ← readU32Le stream
  let (checksum, stream) ← readExact 4 stream
  if length.toNat > maxPacketSize then throw (.message "packet size too large")
  pure (⟨magic, command, length, UInt32.ofNat (leNat checksum.1)⟩, stream)

section Reading

variable (sha256 : Bytes → Hash)

/-- `deserialize_payload` with the error that it returns. The text of a decoder's error, which is
only logged, is left out. -/
def deserializeOrError (arena : Arena) (buffer : Bytes) (checksum : UInt32) (command : ByteArr 12) :
    Outcome (Except Error (Option ReceivedPayload)) :=
  if shorthash sha256 buffer ≠ checksum then
    .ok (.error (InvalidChecksum.error ⟨checksum, shorthash sha256 buffer⟩))
  else
    match readPayload (m := Parser) sha256 buffer checksum command arena 0 with
    | .ok (payload, _) => .ok (.ok payload)
    | .err => .ok (.error (.message ""))
    | .fault => .fault

/-- `getArena` is what the pools hand out for a payload of some length. -/
def readPacket (getArena : Nat → Arena) (stream : Bytes) : Outcome (Except Error (Packet × Bytes)) :=
  match readHeader stream with
  | .error e => .ok (.error e)
  | .ok (header, stream) =>
    match readExact header.length.toNat stream with
    | .error e => .ok (.error e)
    | .ok (buffer, stream) => do
      let deserialized ← deserializeOrError sha256 (getArena header.length.toNat) buffer.1 header.checksum header.command
      let payload := match deserialized with
        | .ok payload => payload
        -- every error is logged and ignored here
        | .error _ => none
      pure (.ok (⟨header, buffer.1, payload⟩, stream))

/-- What the reader task sends from the `n`-th packet on. A panic of the task closes the channel.
A packet has at least one byte, so the length of the stream bounds their number. -/
def readAndSendLoop (getArena : Nat → Nat → Arena) : Nat → Nat → Bytes → List (Except Error Packet)
  | 0, _, _ => []
  | fuel + 1, n, stream =>
    match readPacket sha256 (getArena n) stream with
    | .ok (.ok (packet, stream)) => .ok packet :: readAndSendLoop getArena fuel (n + 1) stream
    | .ok (.error e) => [.error e]
    | _ => []

def readAndSendMessages (getArena : Nat → Nat → Arena) (stream : Bytes) : List (Except Error Packet) :=
  readAndSendLoop sha256 getArena (stream.length + 1) 0 stream

end Reading

/-! The handshake. -/

/-- The answers, and the new values of `success` and `remote_version`. -/
def handlePacketDuringHandshaking (packet : ReceivedPayload) (success : Bool) (remoteVersion : Option Version) :
    Except Error (Option (List PayloadToSend) × Bool × Option Version) :=
  match packet with
  | .version v =>
    if remoteVersion.isSome then .error (.message "sent the version packet more than once")
    else .ok (none, success, some v)
  | .verAck =>
    match remoteVersion with
    | none => .error (.message "sent verack before version")
    | some rv =>
      .ok (some ((if rv.version > 70016 then [.sendAddrV2] else []) ++ [.verAck] ++
        if rv.version > 70012 then [.sendHeaders] else []), true, some rv)
  | .ping nonce => .ok (some [.pong nonce], success, remoteVersion)
  | _ => .ok (none, success, remoteVersion)

/-- What else can end a connection: an error before the `n`-th packet is read (the deadline of the
handshake, a failed write) or while it is answered. -/
structure Interruptions where
  reading : Nat → Option Error
  answering : Nat → Option Error

def undisturbed : Interruptions := ⟨fun _ => none, fun _ => none⟩

/-- The loop of `handshake` over what the reader task sends, with the packets written so far. On
success it returns what has not been read yet. -/
def handshakeLoop (w : Interruptions) : List (Except Error Packet) → Nat → Option Version → List PayloadToSend →
    List PayloadToSend × Outcome (Except Error (Version × Nat × List (Except Error Packet)))
  | [], n, _, sent => (sent, .ok (.error ((w.reading n).getD (.message "read chan closed"))))
  | read :: reads, n, remoteVersion, sent =>
    match w.reading n, read with
    | some e, _ => (sent, .ok (.error e))
    | none, .error e => (sent, .ok (.error e))
    | none, .ok packet =>
      let handled := match packet.payload with
        | some p => handlePacketDuringHandshaking p false remoteVersion
        | none => .ok (none, false, remoteVersion)
      match handled with
      | .error e => (sent, .ok (.error e))
      | .ok (responses, finished, remoteVersion) =>
        match responses.bind fun _ => w.answering n with
        | some e => (sent, .ok (.error e))
        | none =>
          let sent := sent ++ responses.getD []
          if finished then (sent, (Outcome.unwrap remoteVersion).bind fun v => .ok (.ok (v, n + 1, reads)))
          else handshakeLoop w reads (n + 1) remoteVersion sent

/-- The packets written behind the own version packet, and the result. -/
def handshake (w : Interruptions) (reads : List (Except Error Packet)) :
    List PayloadToSend × Outcome (Except Error (Version × Nat × List (Except Error Packet))) :=
  handshakeLoop w reads 0 none []

/-- The loop of `crawl`: the number of packets received, and the error that ends it. -/
def receiveLoop (w : Interruptions) : List (Except Error Packet) → Nat → UInt32 → UInt32 × Error
  | [], n, received => (received, (w.reading n).getD (.message "read chan closed"))
  | read :: reads, n, received =>
    match w.reading n, read, w.answering n with
    | some e, _, _ => (received, e)
    | none, .error e, _ => (received, e)
    | none, .ok _, some e => (received, e)
    | none, .ok _, none => receiveLoop w reads (n + 1) (received + 1)

/-- The session of a peer that sends these packets. -/
def sessionOf (w : Interruptions) (duration : Duration) (reads : List (Except Error Packet)) : Outcome Session := do
  match ← (handshake w reads).2 with
  | .error e => pure ⟨.error e, duration⟩
  | .ok (_, n, reads) => pure ⟨.ok (receiveLoop w reads n 0), duration⟩

end Bitlens

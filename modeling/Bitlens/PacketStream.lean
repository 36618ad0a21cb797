import Bitlens.Lib.Sha256
import Bitlens.ParsedBlocks
import Bitlens.TxWire

namespace Bitlens
open Lib

def activeMagic : UInt32 := 0xD9B4BEF9

/-- The bytes that `write_packet` writes. -/
def writePacket (sha256 : Bytes → Hash) (packet : PayloadToSend) : Bytes :=
  let buf := packet.serialize
  leBytes 4 activeMagic.toNat ++ packet.command.1 ++ leBytes 4 (UInt32.ofNat buf.length).toNat ++
    (digestTwice sha256 buf).1.take 4 ++ buf

/-- A transaction that is what its bytes are read as. -/
structure Tx.OnWire (sha256 : Bytes → Hash) (tx : Tx) : Prop where
  complete : tx.Complete
  hashed : tx.hash = digestTwice sha256 (serializeTx tx.withoutWitness)
  witnessHashed : tx.computeWitnessHash sha256 = .ok tx

structure Block.OnWire (sha256 : Bytes → Hash) (block : Block) : Prop where
  mined : block.header.Mined sha256
  counted : block.header.txsCount = UInt64.ofNat block.txs.length
  merkle : intoRoot sha256 (block.txs.map (·.hash)) false = (block.header.merkleRoot, false)
  txs : ∀ tx ∈ block.txs, tx.OnWire sha256

/-- What the bytes of a message of any kind can carry. -/
def PayloadToSend.OnWire (sha256 : Bytes → Hash) : PayloadToSend → Prop
  | .tx v => v.OnWire sha256
  | .block v => v.OnWire sha256
  | p => p.Carried sha256

variable {sha256 : Bytes → Hash} {arena : Arena} {consumed : Nat}

theorem Tx.OnWire.decodes {tx : Tx} (onWire : tx.OnWire sha256) :
    Decodes (deserializeTx sha256) (serializeTx tx) tx := by
  intro rest
  obtain ⟨v, found, _, read⟩ := deserializeTx_ok onWire.complete onWire.hashed rest
  cases onWire.witnessHashed.symm.trans found
  exact read

theorem serializeTx_pos (tx : Tx) : 0 < (serializeTx tx).length := by
  simp only [serializeTx, List.length_append, length_leBytes]
  omega

theorem serializeBlock_eq {block : Block} (counted : block.header.txsCount = UInt64.ofNat block.txs.length) :
    serializeBlock block = hashedBytes block.header ++ serializeArray serializeTx block.txs := by
  rw [serializeBlock, serializeBlockHeader_eq, serializeArray, counted, List.append_assoc]

/-- A block is read back from its bytes. -/
theorem Block.OnWire.decodes {block : Block} (onWire : block.OnWire sha256)
    (small : (serializeBlock block).length < 2 ^ 63) :
    Decodes (deserializeBlock sha256) (serializeBlock block) block := by
  intro rest
  have whole := serializeBlock_eq onWire.counted
  have eighty := length_hashedBytes block.header
  have total : (serializeBlock block).length = 80 + (serializeArray serializeTx block.txs).length := by
    rw [whole, List.length_append, eighty]
  have count := length_le_flatMap fun tx (_ : tx ∈ block.txs) => serializeTx_pos tx
  have inside : block.txs.length < 2 ^ 64 := by
    rw [serializeArray, List.length_append] at total
    omega
  have header : (deserializeBlockHeader sha256 (serializeBlock block ++ rest) : Outcome (BlockHeaderOwned × Nat)) =
      .ok (block.header, (serializeBlockHeader block.header).length) := by
    rw [serializeBlock, List.append_assoc]
    exact decodes_blockHeader onWire.mined.hashed onWire.mined.valid _
  have split : serializeBlock block ++ rest =
      hashedBytes block.header ++ (serializeArray serializeTx block.txs ++ rest) := by
    rw [whole, List.append_assoc]
  have behind := withOffset_ok split eighty
  have txs := @decodes_array _ txLayout (deserializeTx sha256) serializeTx block.txs
    (fun tx member => (onWire.txs tx member).decodes) (by omega) inside rest
  rw [deserializeBlock, header, Outcome.ok_bind]
  dsimp only
  rw [behind, Outcome.ok_bind, txs, Outcome.ok_bind]
  dsimp only
  rw [onWire.merkle]
  dsimp only
  rw [ensure_ok rfl, Outcome.ok_bind, ensure_ok rfl, Outcome.ok_bind, add_ok (by omega), Outcome.ok_bind, total,
    Nat.add_comm]
  rfl

theorem follows_deserializeBlock (buffer : Bytes) :
    Follows (deserializeBlock sha256 buffer) (deserializeBlock sha256 buffer) := by
  refine .bind (.deserializeBlockHeader _ sha256) fun (_, _) => .bind (.withOffset _ _) fun rest => ?_
  refine .bind (.deserializeArray _ fun buffer => .deserializeTx buffer sha256) fun (txs, _) => ?_
  dsimp only
  exact .bind (.ensure _) fun _ => .bind (.ensure _) fun _ => .bind (.add _ _) fun _ => .pure _

/-- Every message but `GetAddr` and `GetData` is received as it was sent. -/
theorem received_of_onWire {p : PayloadToSend} (onWire : p.OnWire sha256) (short : p.serialize.length ≤ maxPacketSize)
    (fits : arena.Fits consumed (demands sha256 p.serialize p.command)) (dispatched : p.Dispatched) :
    Received sha256 arena consumed p := by
  have returns := returns_of_fits short fits
  have checked := checksum_ok sha256 p.serialize arena consumed
  cases p with
  | tx v =>
    have read := onWire.decodes []
    rw [List.append_nil] at read
    obtain ⟨used, result⟩ := received_of_arm returns (.deserializeTx _ sha256) ⟨_, read⟩ (parser_bind checked)
    exact ⟨.tx v, used, result, rfl⟩
  | block v =>
    have small : (serializeBlock v).length < 2 ^ 63 := lt_of_le_of_lt short (by decide)
    have read := onWire.decodes small []
    rw [List.append_nil] at read
    obtain ⟨used, result⟩ := received_of_arm returns (follows_deserializeBlock _) ⟨_, read⟩ (parser_bind checked)
    exact ⟨.block v, used, result, rfl⟩
  | _ => exact received_of_dispatched trivial onWire short fits dispatched

/-! One packet. -/

theorem except_ok_bind {α β : Type} {a : α} {f : α → Except Error β} : (Except.ok a >>= f) = f a :=
  rfl

theorem readU32Le_append (v : UInt32) (rest : Bytes) : readU32Le (leBytes 4 v.toNat ++ rest) = .ok (v, rest) := by
  have length := length_leBytes 4 v.toNat
  rw [readU32Le, if_pos (by rw [List.length_append]; omega), List.take_left' length, List.drop_left' length,
    leNat_leBytes, Nat.mod_eq_of_lt (show v.toNat < 256 ^ 4 from v.toNat_lt), UInt32.ofNat_toNat]

theorem readExact_append {n : Nat} {bytes : Bytes} (length : bytes.length = n) (rest : Bytes) :
    readExact n (bytes ++ rest) = .ok (⟨bytes, length⟩, rest) := by
  rw [readExact, dif_pos (by rw [List.length_append]; omega)]
  simp only [List.take_left' length, List.drop_left' length]

theorem length_shorthash (sha256 : Bytes → Hash) (bytes : Bytes) :
    ((digestTwice sha256 bytes).1.take 4).length = 4 := by
  rw [List.length_take, (digestTwice sha256 bytes).2]
  rfl

/-- The header in front of a written payload. -/
def packetHeader (sha256 : Bytes → Hash) (p : PayloadToSend) : PacketHeader :=
  ⟨activeMagic, p.command, UInt32.ofNat p.serialize.length, shorthash sha256 p.serialize⟩

theorem readHeader_written (sha256 : Bytes → Hash) (p : PayloadToSend) (rest : Bytes) :
    readHeader (writePacket sha256 p ++ rest) =
      if (UInt32.ofNat p.serialize.length).toNat > maxPacketSize then .error (.message "packet size too large")
      else .ok (packetHeader sha256 p, p.serialize ++ rest) := by
  have magic := readU32Le_append activeMagic (p.command.1 ++ (leBytes 4 (UInt32.ofNat p.serialize.length).toNat ++
    ((digestTwice sha256 p.serialize).1.take 4 ++ (p.serialize ++ rest))))
  have command := readExact_append p.command.2 (leBytes 4 (UInt32.ofNat p.serialize.length).toNat ++
    ((digestTwice sha256 p.serialize).1.take 4 ++ (p.serialize ++ rest)))
  have length := readU32Le_append (UInt32.ofNat p.serialize.length)
    ((digestTwice sha256 p.serialize).1.take 4 ++ (p.serialize ++ rest))
  have checksum := readExact_append (length_shorthash sha256 p.serialize) (p.serialize ++ rest)
  rw [readHeader, writePacket]
  dsimp only
  rw [List.append_assoc, List.append_assoc, List.append_assoc, List.append_assoc, magic, except_ok_bind]
  dsimp only
  rw [command, except_ok_bind]
  dsimp only
  rw [length, except_ok_bind]
  dsimp only
  rw [checksum, except_ok_bind]
  dsimp only
  by_cases large : (UInt32.ofNat p.serialize.length).toNat > maxPacketSize
  · rw [if_pos large, if_pos large]
    rfl
  · rw [if_neg large, if_neg large]
    rfl

/-- The arena is one that is picked for the message, and what its decoder asks for fits in it. -/
def PayloadToSend.FitsIn (sha256 : Bytes → Hash) (p : PayloadToSend) (arena : Arena) : Prop :=
  arena.capacity = arenaSize p.serialize.length ∧ arena.Fits p.serialize.length (demands sha256 p.serialize p.command)

/-- The packet that a message arrives in. -/
structure Delivers (sha256 : Bytes → Hash) (p : PayloadToSend) (packet : Packet) : Prop where
  header : packet.header = packetHeader sha256 p
  buffer : packet.buffer = p.serialize
  payload : p.Dispatched → packet.payload.map (·.toOwned) = some p
  ignored : ¬ p.Dispatched → packet.payload = none

theorem deserializePayload_of_undispatched {p : PayloadToSend} (unknown : ¬ p.Dispatched) :
    deserializePayload (m := Parser) sha256 p.serialize (shorthash sha256 p.serialize) p.command arena consumed =
      .ok (none, consumed) := by
  have checked := checksum_ok sha256 p.serialize arena consumed
  cases p with
  | getAddr => exact parser_bind checked
  | getData inner => exact parser_bind checked
  | _ => exact absurd trivial unknown

theorem toNat_written_length {p : PayloadToSend} (counted : p.serialize.length < 2 ^ 32) :
    (UInt32.ofNat p.serialize.length).toNat = p.serialize.length :=
  UInt32.toNat_ofNat_of_lt counted

theorem deserializeOrError_written {p : PayloadToSend} (onWire : p.OnWire sha256)
    (short : p.serialize.length ≤ maxPacketSize) (fits : p.FitsIn sha256 arena) :
    ∃ payload,
      deserializeOrError sha256 arena p.serialize (shorthash sha256 p.serialize) p.command = .ok (.ok payload) ∧
      (p.Dispatched → payload.map (·.toOwned) = some p) ∧ (¬ p.Dispatched → payload = none) := by
  rw [deserializeOrError, if_neg (not_not.mpr rfl), readPayload_eq sha256 fits.1 short]
  by_cases dispatched : p.Dispatched
  · obtain ⟨received, used, result, same⟩ := received_of_onWire onWire short fits.2 dispatched
    rw [result]
    exact ⟨some received, rfl, fun _ => congrArg some same, fun absent => absurd dispatched absent⟩
  · rw [deserializePayload_of_undispatched dispatched]
    exact ⟨none, rfl, fun present => absurd present dispatched, fun _ => rfl⟩

/-- A written packet is read back, and the next one is behind it. -/
theorem readPacket_written {p : PayloadToSend} {getArena : Nat → Arena} (onWire : p.OnWire sha256)
    (short : p.serialize.length ≤ maxPacketSize) (fits : p.FitsIn sha256 (getArena p.serialize.length)) (rest : Bytes) :
    ∃ packet, readPacket sha256 getArena (writePacket sha256 p ++ rest) = .ok (.ok (packet, rest)) ∧
      Delivers sha256 p packet := by
  have header := readHeader_written sha256 p rest
  have length := toNat_written_length (p := p) (lt_of_le_of_lt short (by decide))
  rw [length, if_neg (Nat.not_lt.mpr short)] at header
  have whole := readExact_append length.symm rest
  obtain ⟨payload, deserialized, dispatched, ignored⟩ := deserializeOrError_written onWire short fits
  refine ⟨⟨packetHeader sha256 p, p.serialize, payload⟩, ?_, ⟨rfl, rfl, dispatched, ignored⟩⟩
  rw [readPacket, header]
  dsimp only [packetHeader]
  rw [whole]
  dsimp only
  rw [length, deserialized]
  rfl

/-! The packets of a connection. -/

theorem writePacket_pos (sha256 : Bytes → Hash) (p : PayloadToSend) : 0 < (writePacket sha256 p).length := by
  simp only [writePacket, List.length_append, length_leBytes]
  omega

/-- The messages come one after another, the rest is read behind them. -/
theorem readAndSendLoop_written {getArena : Nat → Nat → Arena} {ps : List PayloadToSend} {n : Nat}
    (onWire : ∀ p ∈ ps, p.OnWire sha256) (short : ∀ p ∈ ps, p.serialize.length ≤ maxPacketSize)
    (fits : ∀ (i : Nat) (p : PayloadToSend), ps[i]? = some p → p.FitsIn sha256 (getArena (n + i) p.serialize.length))
    (fuel : Nat) (rest : Bytes) :
    ∃ packets, List.Forall₂ (Delivers sha256) ps packets ∧
      readAndSendLoop sha256 getArena (ps.length + fuel) n (ps.flatMap (writePacket sha256) ++ rest) =
        packets.map .ok ++ readAndSendLoop sha256 getArena fuel (n + ps.length) rest := by
  induction ps generalizing n with
  | nil =>
    refine ⟨[], .nil, ?_⟩
    rw [List.length_nil, Nat.zero_add]
    rfl
  | cons p ps ih =>
    obtain ⟨packet, read, delivers⟩ := readPacket_written (onWire p List.mem_cons_self) (short p List.mem_cons_self)
      (fits 0 p rfl) (ps.flatMap (writePacket sha256) ++ rest)
    obtain ⟨packets, others, further⟩ := @ih (n + 1) (fun q member => onWire q (List.mem_cons_of_mem _ member))
      (fun q member => short q (List.mem_cons_of_mem _ member)) fun i q atI => by
        have later := fits (i + 1) q atI
        rwa [show n + (i + 1) = n + 1 + i by omega] at later
    refine ⟨packet :: packets, .cons delivers others, ?_⟩
    rw [List.length_cons, show ps.length + 1 + fuel = ps.length + fuel + 1 by omega, List.flatMap_cons,
      List.append_assoc, readAndSendLoop]
    rw [Nat.add_zero] at read
    rw [read]
    dsimp only
    rw [further, show n + 1 + ps.length = n + (ps.length + 1) by omega]
    rfl

theorem length_le_written (sha256 : Bytes → Hash) (ps : List PayloadToSend) :
    ps.length ≤ (ps.flatMap (writePacket sha256)).length :=
  length_le_flatMap fun p _ => writePacket_pos sha256 p

/-- The reader task delivers what was written in order, up to an error behind it. -/
theorem readAndSendMessages_until {getArena : Nat → Nat → Arena} {ps : List PayloadToSend} {rest : Bytes} {e : Error}
    (onWire : ∀ p ∈ ps, p.OnWire sha256) (short : ∀ p ∈ ps, p.serialize.length ≤ maxPacketSize)
    (fits : ∀ (i : Nat) (p : PayloadToSend), ps[i]? = some p → p.FitsIn sha256 (getArena i p.serialize.length))
    (ends : readHeader rest = .error e) :
    ∃ packets, List.Forall₂ (Delivers sha256) ps packets ∧
      readAndSendMessages sha256 getArena (ps.flatMap (writePacket sha256) ++ rest) =
        packets.map .ok ++ [.error e] := by
  have few := length_le_written sha256 ps
  obtain ⟨fuel, enough⟩ : ∃ fuel, (ps.flatMap (writePacket sha256) ++ rest).length + 1 = ps.length + (fuel + 1) := by
    rw [List.length_append]
    exact ⟨(ps.flatMap (writePacket sha256)).length + rest.length - ps.length, by omega⟩
  obtain ⟨packets, delivers, whole⟩ := readAndSendLoop_written (n := 0) onWire short
    (fun i p atI => by rw [Nat.zero_add]; exact fits i p atI) (fuel + 1) rest
  refine ⟨packets, delivers, ?_⟩
  rw [readAndSendMessages, enough, whole, readAndSendLoop, readPacket, ends]

/-- What one side writes is what the other side reads, in the same order: then the end of the
stream, or the first message that is too large, ends the reader task. -/
theorem readAndSendMessages_written {getArena : Nat → Nat → Arena} {ps : List PayloadToSend}
    (onWire : ∀ p ∈ ps, p.OnWire sha256) (short : ∀ p ∈ ps, p.serialize.length ≤ maxPacketSize)
    (fits : ∀ (i : Nat) (p : PayloadToSend), ps[i]? = some p → p.FitsIn sha256 (getArena i p.serialize.length)) :
    (∃ packets, List.Forall₂ (Delivers sha256) ps packets ∧
        readAndSendMessages sha256 getArena (ps.flatMap (writePacket sha256)) =
          packets.map .ok ++ [.error (.message "unexpected end of file")]) ∧
      ∀ large others, maxPacketSize < large.serialize.length → large.serialize.length < 2 ^ 32 →
        ∃ packets, List.Forall₂ (Delivers sha256) ps packets ∧
          readAndSendMessages sha256 getArena ((ps ++ large :: others).flatMap (writePacket sha256)) =
            packets.map .ok ++ [.error (.message "packet size too large")] := by
  refine ⟨?_, fun large others tooLarge counted => ?_⟩
  · have ends : readHeader [] = .error (.message "unexpected end of file") := rfl
    obtain ⟨packets, delivers, whole⟩ := readAndSendMessages_until onWire short fits ends
    rw [List.append_nil] at whole
    exact ⟨packets, delivers, whole⟩
  · have ends := readHeader_written sha256 large (others.flatMap (writePacket sha256))
    rw [toNat_written_length counted, if_pos tooLarge] at ends
    obtain ⟨packets, delivers, whole⟩ := readAndSendMessages_until onWire short fits ends
    rw [List.flatMap_append, List.flatMap_cons]
    exact ⟨packets, delivers, whole⟩

/-- A ping behind a request that the other side ignores. -/
def samplePackets : List PayloadToSend :=
  [.getAddr, .ping 7]

theorem samplePackets_fit {i : Nat} {p : PayloadToSend} (atI : samplePackets[i]? = some p) :
    p.FitsIn Sha256.sha256 smallArena := by
  rcases List.mem_cons.mp (List.mem_of_getElem? atI) with same | later
  · rw [same]
    exact ⟨by decide +kernel, by decide +kernel⟩
  · rw [List.mem_singleton.mp later]
    exact ⟨by decide +kernel, by decide +kernel⟩

theorem readAndSendMessages_written_sample :
    ∃ packets, List.Forall₂ (Delivers Sha256.sha256) samplePackets packets ∧
      readAndSendMessages Sha256.sha256 (fun _ _ => smallArena) (samplePackets.flatMap (writePacket Sha256.sha256)) =
          packets.map .ok ++ [.error (.message "unexpected end of file")] :=
  (readAndSendMessages_written (by simp [samplePackets, PayloadToSend.OnWire, PayloadToSend.Carried]) (by decide)
    fun _ _ => samplePackets_fit).1

end Bitlens

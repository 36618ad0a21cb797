import Bitlens.BlockSurvey
import Bitlens.Payload

namespace Bitlens.Lib.Agrees
open Bitlens

variable {α : Type} {buffer : Bytes} {offset : Nat}

theorem ofBytes {bytes : Bytes} {n : Nat} (length : bytes.length = n) : ∃ array, ByteArr.ofBytes n bytes = some array :=
  ⟨⟨bytes, length⟩, dif_pos length⟩

theorem deserializeNetAddrShort :
    Agrees (fun _ => True) (deserializeNetAddrShort buffer) (deserializeNetAddrShort buffer) := by
  refine .bind (.orBail _) fun b found => ?_
  refine .bind (.getU64Le (by decide)) fun services _ => ?_
  obtain ⟨addr, length⟩ := ofBytes (length_of_getRange found)
  refine .bind (.unwrap length) fun _ _ => ?_
  exact .bind (.getU16 (by decide)) fun port _ => .pure trivial

theorem deserializeNetAddr : Agrees (Within buffer) (deserializeNetAddr buffer) (deserializeNetAddr buffer) := by
  refine .bind (.orBail _) fun address found => ?_
  refine .bind (.getU32Le (by decide)) fun time _ => ?_
  obtain ⟨addr, length⟩ := ofBytes (length_of_getRange found)
  refine .bind (.unwrap length) fun _ _ => ?_
  refine .bind (.getU64Le (by decide)) fun services _ => ?_
  exact .bind (.getU16 (by decide)) fun port inBounds => .pure inBounds

theorem deserializeNetAddrV2 (short : buffer.length < 2 ^ 63) :
    Agrees (Within buffer) (deserializeNetAddrV2 buffer) (deserializeNetAddrV2 buffer) := by
  refine .bind (.getU32Le (by decide)) fun time _ => ?_
  refine .bind .withOffset fun rest behind => ?_
  refine .bind .deserializeVarint fun (services, offset) read => ?_
  have within : offset ≤ rest.length := read.1.1
  refine .bind (.add (by omega)) fun position same => ?_
  refine .bind (.orBail _) fun byte _ => ?_
  refine .bind (.orBail _) fun networkId _ => ?_
  refine .bind (.add (by omega)) fun addressStart same' => ?_
  refine .bind .withOffset fun rest' behind' => ?_
  refine .bind (.deserializeVarstr (by omega)) fun (address, delta) read => ?_
  have within' : delta ≤ rest'.length := read.1
  refine .bind (.add (by omega)) fun addressEnd same'' => ?_
  refine .bind (.getU16 (by omega)) fun port inBounds => ?_
  refine .bind (.add (by omega)) fun consumed total => ?_
  exact .pure (show consumed ≤ buffer.length by omega)

theorem deserializeInventoryVector :
    Agrees (Within buffer) (deserializeInventoryVector buffer) (deserializeInventoryVector buffer) := by
  refine .bind (.getU32Le (by decide)) fun rawType _ => ?_
  refine .bind (.orBail _) fun invType _ => ?_
  exact .bind (.getHash (by decide)) fun hash inBounds => .pure inBounds

theorem deserializeVersion (short : buffer.length < 2 ^ 63) :
    Agrees (fun _ => True) (deserializeVersion buffer) (deserializeVersion buffer) := by
  refine .bind (.getU32Le (by decide)) fun version _ => ?_
  refine .bind (.getU64Le (by decide)) fun services _ => ?_
  refine .bind (.getU64Le (by decide)) fun timestamp _ => ?_
  refine .bind .withOffset fun _ _ => ?_
  refine .bind .deserializeNetAddrShort fun (addrrecv, _) _ => ?_
  refine .bind .withOffset fun _ _ => ?_
  refine .bind .deserializeNetAddrShort fun (addrfrom, _) _ => ?_
  refine .bind (.getU64Le (by decide)) fun nonce _ => ?_
  refine .bind .withOffset fun rest behind => ?_
  refine .bind (.deserializeVarstr (by omega)) fun (ua, offset) read => ?_
  have within : offset ≤ rest.length := read.1
  refine .bind (.add (by omega)) fun position same => ?_
  refine .bind (.getU32Le (by omega)) fun startHeight inBounds => ?_
  have announced : Agrees (fun _ => True) (announcedByte version buffer offset) (announcedByte version buffer offset) :=
    .ite (fun _ => .bind (.add (by omega)) fun _ _ => .pure trivial) fun _ => .pure trivial
  refine .bind announced fun announced _ => ?_
  refine .bind (.add ?_) fun _ _ => .pure trivial
  split <;> omega

theorem deserializeLocator (short : buffer.length < 2 ^ 63) (remaining : Nat) (small : offset ≤ 2 ^ 63 + 64) :
    Agrees (fun result => result.2 ≤ 2 ^ 63 + 64) (deserializeLocator buffer remaining offset)
      (deserializeLocator buffer remaining offset) := by
  induction remaining generalizing offset with
  | zero => exact .pure small
  | succ remaining ih =>
    refine .bind (.getHash (by omega)) fun hash inBounds => ?_
    refine .bind (.add (by omega)) fun next same => ?_
    exact .bind (ih (by omega)) fun _ read => .pure read

theorem deserializeGetHeaders (short : buffer.length < 2 ^ 63) :
    Agrees (fun _ => True) (deserializeGetHeaders buffer) (deserializeGetHeaders buffer) := by
  refine .bind (.getU32Le (by decide)) fun version _ => ?_
  refine .bind .withOffset fun rest behind => ?_
  refine .bind .deserializeVarint fun (length, offset) read => ?_
  have within : offset ≤ rest.length := read.1.1
  refine .bind (.add (by omega)) fun start same => ?_
  refine .bind .tryAllocArray fun _ _ => ?_
  refine .bind (.deserializeLocator short _ (by omega)) fun (blockLocator, stop) read => ?_
  have small : stop ≤ 2 ^ 63 + 64 := read
  refine .bind (.getHash (by omega)) fun hashStop inBounds => ?_
  exact .bind (.add (by omega)) fun _ _ => .pure trivial

/-- One arm of `deserialize_payload`. -/
theorem deserializeInto {item : Bytes → Parser (α × Nat)} {item' : Bytes → Survey (α × Nat)} {layout : Layout}
    {received : α → ReceivedPayload} {post : α × Nat → Prop} (agrees : Agrees post (item buffer) (item' buffer)) :
    Agrees (fun _ => True) (deserializeInto layout item buffer received) (deserializeInto layout item' buffer received) :=
  .bind .tryAlloc fun _ _ => .bind agrees fun _ _ => .pure trivial

theorem deserializePayload (sha256 : Bytes → Hash) {checksum : UInt32} {command : ByteArr 12}
    (short : buffer.length < 2 ^ 63) :
    Agrees (fun _ => True) (deserializePayload sha256 buffer checksum command)
      (deserializePayload sha256 buffer checksum command) := by
  have nonce : Agrees (fun _ => True) (deserializeNonce buffer) (deserializeNonce buffer) :=
    .bind (.getU64Le (by decide)) fun _ _ => .pure trivial
  have empty : Agrees (fun _ => True) (deserializeEmpty buffer) (deserializeEmpty buffer) := .pure trivial
  have inventory : Agrees _ (Bitlens.deserializeArray inventoryVectorLayout Bitlens.deserializeInventoryVector buffer) _ :=
    .deserializePlainArray (fun _ _ => .deserializeInventoryVector) short
  refine .bind (.ensure _) fun _ _ => ?_
  refine .ite (fun _ => .deserializeInto (.deserializeVersion short)) fun _ => ?_
  refine .ite (fun _ => .deserializeInto empty) fun _ => ?_
  refine .ite (fun _ => .deserializeInto nonce) fun _ => ?_
  refine .ite (fun _ => .deserializeInto nonce) fun _ => ?_
  refine .ite (fun _ => .deserializeInto empty) fun _ => ?_
  refine .ite (fun _ => .deserializeInto empty) fun _ => ?_
  refine .ite (fun _ => .deserializeInto (.deserializeTx sha256 short)) fun _ => ?_
  refine .ite (fun _ => .deserializeInto (.deserializeBlock sha256 short)) fun _ => ?_
  refine .ite (fun _ => .deserializeInto (.deserializePlainArray (fun _ _ => .deserializeNetAddr) short)) fun _ => ?_
  refine .ite (fun _ => .deserializeInto (.deserializePlainArray (fun _ => .deserializeNetAddrV2) short)) fun _ => ?_
  refine .ite (fun _ => .deserializeInto inventory) fun _ => ?_
  refine .ite (fun _ => .deserializeInto (.deserializePlainArray (fun _ => .deserializeBlockHeader sha256) short)) fun _ => ?_
  refine .ite (fun _ => .deserializeInto (.deserializeGetHeaders short)) fun _ => ?_
  exact .ite (fun _ => .deserializeInto inventory) fun _ => .pure trivial

end Bitlens.Lib.Agrees

namespace Bitlens
open Lib

/-- The payload, read into the arena, is deserialized without a panic. -/
def Returns (sha256 : Bytes → Hash) (arena : Arena) (payload : Bytes) (command : ByteArr 12) : Prop :=
  readPayload (m := Parser) sha256 payload (shorthash sha256 payload) command arena 0 ≠ .fault

/-- The string lengths and memory blocks that a payload asks for, in the order of reading,
up to where it is refused. -/
def demands (sha256 : Bytes → Hash) (payload : Bytes) (command : ByteArr 12) : List Demand :=
  (deserializePayload (m := Survey) sha256 payload (shorthash sha256 payload) command).demands

/-- The buffer always fits, and lies at the start of the arena. -/
theorem readPayload_eq (sha256 : Bytes → Hash) {arena : Arena} {payload : Bytes} {checksum : UInt32} {command : ByteArr 12}
    (picked : arena.capacity = arenaSize payload.length) (fits : payload.length ≤ maxPacketSize) :
    readPayload (m := Parser) sha256 payload checksum command arena 0 =
      deserializePayload (m := Parser) sha256 payload checksum command arena payload.length := by
  have unpadded : arena.padding 1 0 = 0 := Nat.mod_one _
  have room : payload.length ≤ arena.capacity := by
    rw [picked, arenaSize]
    split
    · exact fits
    · next small =>
      rw [smallArenaSize] at small ⊢
      omega
  have buffer : Arena.Fits arena 0 [.block (1 * payload.length) 1] := by
    refine ⟨?_, trivial⟩
    rw [unpadded]
    omega
  have agrees : Agrees (fun _ => True) (tryAllocArray ⟨1, 1⟩ payload.length) (tryAllocArray ⟨1, 1⟩ payload.length) :=
    .tryAllocArray
  have start := agrees.fits arena 0 buffer
  have used : arena.after 0 [.block (1 * payload.length) 1] = payload.length := by
    rw [Arena.after, unpadded, Arena.after]
    omega
  change (tryAllocArray (m := Parser) ⟨1, 1⟩ payload.length arena 0).bind _ = _
  rw [start]
  change deserializePayload (m := Parser) sha256 payload checksum command arena
    (arena.after 0 [.block (1 * payload.length) 1]) = _
  rw [used]

/-- `deserialize_payload` returns exactly when each declared string length, added to the
bytes before it, is below `2 ^ 64` and the requested blocks fit behind the payload. -/
theorem returns_iff (sha256 : Bytes → Hash) (arena : Arena) (payload : Bytes) (command : ByteArr 12)
    (picked : arena.capacity = arenaSize payload.length) (fits : payload.length ≤ maxPacketSize) :
    Returns sha256 arena payload command ↔ arena.Fits payload.length (demands sha256 payload command) := by
  have short : payload.length < 2 ^ 63 := by
    rw [maxPacketSize] at fits
    omega
  have agrees : Agrees (fun _ => True)
      (deserializePayload sha256 payload (shorthash sha256 payload) command)
      (deserializePayload sha256 payload (shorthash sha256 payload) command) := .deserializePayload sha256 short
  rw [Returns, readPayload_eq sha256 picked fits, Ne, agrees.fault_iff, not_not]
  rfl

/-- An inventory of one block. -/
def inventoryPayload : Bytes := 1 :: leBytes 4 2 ++ List.replicate 32 7

/-- SHA-256 on that inventory and on its digest. -/
def inventorySha256 (bytes : Bytes) : Hash :=
  if bytes = inventoryPayload then
    ⟨[152, 199, 235, 159, 67, 134, 143, 191, 57, 3, 254, 246, 100, 111, 195, 147,
      216, 62, 194, 252, 210, 104, 120, 45, 165, 136, 14, 28, 230, 217, 252, 166], rfl⟩
  else
    ⟨[66, 131, 11, 42, 248, 85, 232, 89, 131, 132, 83, 179, 151, 54, 111, 60,
      145, 208, 115, 36, 120, 30, 229, 224, 191, 121, 102, 0, 51, 140, 59, 42], rfl⟩

def smallArena : Arena := ⟨4096, smallArenaSize, smallArenaSize_inBounds⟩

theorem returns_iff_inventory : Returns inventorySha256 smallArena inventoryPayload ⟨invCommand, rfl⟩ :=
  (returns_iff inventorySha256 smallArena inventoryPayload ⟨invCommand, rfl⟩ rfl (by decide)).mpr (by decide)

/-- An inventory that declares `2 ^ 64 - 1` entries. -/
def hugePayload : Bytes := List.replicate 9 0xFF

theorem returns_fails :
    ¬ ∃ sha256 : Bytes → Hash, ∀ (arena : Arena) (payload : Bytes) (command : ByteArr 12),
      arena.capacity = arenaSize payload.length → payload.length ≤ maxPacketSize →
        Returns sha256 arena payload command := by
  intro ⟨sha256, claim⟩
  refine claim smallArena hugePayload ⟨invCommand, rfl⟩ rfl (by decide) ?_
  unfold readPayload deserializePayload ensure
  rw [if_pos rfl]
  rfl

end Bitlens

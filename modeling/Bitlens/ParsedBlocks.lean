import Bitlens.BlockServing
import Bitlens.Connection
import Bitlens.WitnessCommitment

namespace Bitlens
open Lib

/-! What the decoders say about the packets of a peer. -/

section Reading

variable {sha256 : Bytes → Hash} {buffer : Bytes} {arena : Arena} {offset width consumed used : Nat}

theorem of_parser_ensure {condition : Prop} [Decidable condition]
    (result : ensure (m := Parser) condition arena consumed = .ok ((), used)) : condition := by
  by_contra fails
  rw [ensure, if_neg fails] at result
  cases result

theorem getBytes_parsed {bytes : Bytes}
    (result : getBytes (m := Parser) width buffer offset arena consumed = .ok (bytes, used)) :
    (buffer.drop offset).take width = bytes ∧ bytes.length = width := by
  obtain ⟨stop, middle, sum, result⟩ := parser_bind_eq_ok.mp result
  obtain ⟨total, fits, same⟩ := Outcome.bind_eq_ok.mp sum
  obtain ⟨_, rfl⟩ := Profile.dev_add_eq_ok.mp fits
  obtain ⟨rfl, _⟩ := Prod.mk.inj (Outcome.ok.inj same)
  cases found : getRange buffer offset (offset + width) with
  | none =>
    rw [found] at result
    cases result
  | some slice =>
    rw [found] at result
    cases result
    refine ⟨?_, ?_⟩
    · rw [← (getRange_eq_some.mp found).2.2, List.take_drop]
    · rw [length_of_getRange found, Nat.add_sub_cancel_left]

theorem getU32Le_parsed {value : UInt32}
    (result : getU32Le (m := Parser) buffer offset arena consumed = .ok (value, used)) :
    leBytes 4 value.toNat = (buffer.drop offset).take 4 := by
  obtain ⟨bytes, _, read, result⟩ := parser_bind_eq_ok.mp result
  obtain ⟨slice, length⟩ := getBytes_parsed read
  cases result
  have small := leNat_lt bytes
  rw [length] at small
  have back := leBytes_leNat bytes
  rw [length] at back
  rw [slice, UInt32.toNat_ofNat', Nat.mod_eq_of_lt (by simpa using small), back]

theorem getHash_parsed {hash : Hash} (result : getHash (m := Parser) buffer offset arena consumed = .ok (hash, used)) :
    hash.1 = (buffer.drop offset).take 32 := by
  obtain ⟨bytes, _, read, result⟩ := parser_bind_eq_ok.mp result
  obtain ⟨slice, length⟩ := getBytes_parsed read
  rw [ByteArr.ofBytes, dif_pos length] at result
  cases result
  exact slice.symm

/-- The hash of the header is that of its bytes, and it is below the target of its bits. -/
structure BlockHeaderOwned.Mined (sha256 : Bytes → Hash) (header : BlockHeaderOwned) : Prop where
  hashed : header.hash = digestTwice sha256 (hashedBytes header)
  valid : isValid header.hash header.bits

theorem deserializeBlockHeader_parsed {header : BlockHeaderOwned} {read : Nat}
    (result : deserializeBlockHeader (m := Parser) sha256 buffer arena consumed = .ok ((header, read), used)) :
    header.Mined sha256 := by
  obtain ⟨version, _, atVersion, result⟩ := parser_bind_eq_ok.mp result
  obtain ⟨parent, _, atParent, result⟩ := parser_bind_eq_ok.mp result
  obtain ⟨merkleRoot, _, atRoot, result⟩ := parser_bind_eq_ok.mp result
  obtain ⟨timestamp, _, atTimestamp, result⟩ := parser_bind_eq_ok.mp result
  obtain ⟨bits, _, atBits, result⟩ := parser_bind_eq_ok.mp result
  obtain ⟨nonce, _, atNonce, result⟩ := parser_bind_eq_ok.mp result
  obtain ⟨rest, _, _, result⟩ := parser_bind_eq_ok.mp result
  obtain ⟨⟨txsCount, offset⟩, _, _, result⟩ := parser_bind_eq_ok.mp result
  obtain ⟨bytes, _, atBytes, result⟩ := parser_bind_eq_ok.mp result
  obtain ⟨_, _, valid, result⟩ := parser_bind_eq_ok.mp result
  obtain ⟨total, _, _, result⟩ := parser_bind_eq_ok.mp result
  cases result
  have whole : bytes =
      hashedBytes ⟨version, parent, merkleRoot, timestamp, bits, nonce, txsCount, digestTwice sha256 bytes⟩ := by
    cases found : getRange buffer 0 80 with
    | none =>
      rw [found] at atBytes
      cases atBytes
    | some slice =>
      rw [found] at atBytes
      cases atBytes
      rw [← (getRange_eq_some.mp found).2.2, List.drop_zero]
      dsimp only [hashedBytes]
      rw [getU32Le_parsed atVersion, getHash_parsed atParent, getHash_parsed atRoot, getU32Le_parsed atTimestamp,
        getU32Le_parsed atBits, getU32Le_parsed atNonce, List.drop_zero]
      rw [← List.take_add, ← List.take_add, ← List.take_add, ← List.take_add, ← List.take_add]
  refine ⟨?_, of_parser_ensure valid⟩
  exact congrArg (digestTwice sha256) whole

/-- What the decoders have checked of a payload. None of them returns a request for data. -/
def ReceivedPayload.Checked (sha256 : Bytes → Hash) (buffer : Bytes) (arena : Arena) : ReceivedPayload → Prop
  | ReceivedPayload.block v =>
    ∃ before read stop, deserializeBlock (m := Parser) sha256 buffer arena before = .ok ((v, read), stop)
  | ReceivedPayload.headers inner => ∀ header ∈ inner, header.Mined sha256
  | ReceivedPayload.getData _ => False
  | _ => True

/-- A decoder of payloads that returns only checked ones. -/
def ReturnsChecked (sha256 : Bytes → Hash) (buffer : Bytes) (arena : Arena) (q : Parser (Option ReceivedPayload)) :
    Prop :=
  ∀ payload start used, q arena start = .ok (some payload, used) → payload.Checked sha256 buffer arena

theorem ReturnsChecked.ite {condition : Prop} [Decidable condition] {q r : Parser (Option ReceivedPayload)}
    (yes : ReturnsChecked sha256 buffer arena q) (no : ReturnsChecked sha256 buffer arena r) :
    ReturnsChecked sha256 buffer arena (if condition then q else r) := by
  split
  · exact yes
  · exact no

theorem ReturnsChecked.into {α : Type} {layout : Layout} {item : Bytes → Parser (α × Nat)}
    {received : α → ReceivedPayload}
    (checked : ∀ value before read stop, item buffer arena before = .ok ((value, read), stop) →
      (received value).Checked sha256 buffer arena) :
    ReturnsChecked sha256 buffer arena (deserializeInto layout item buffer received) := by
  intro payload start used result
  obtain ⟨_, before, _, result⟩ := parser_bind_eq_ok.mp result
  obtain ⟨⟨value, read⟩, _, parsed, result⟩ := parser_bind_eq_ok.mp result
  cases result
  exact checked value before read _ parsed

theorem deserializePayload_checked {checksum : UInt32} {command : ByteArr 12} :
    ReturnsChecked sha256 buffer arena (deserializePayload sha256 buffer checksum command) := by
  intro payload start used result
  obtain ⟨_, middle, _, result⟩ := parser_bind_eq_ok.mp result
  refine (?_ : ReturnsChecked sha256 buffer arena _) payload middle used result
  iterate 7 refine .ite (.into fun _ _ _ _ _ => trivial) ?_
  refine .ite (.into fun _ before read stop parsed => ⟨before, read, stop, parsed⟩) ?_
  iterate 3 refine .ite (.into fun _ _ _ _ _ => trivial) ?_
  refine .ite (.into fun _ _ _ _ parsed => ?_) ?_
  · obtain ⟨_, _, _, parsed⟩ := parser_bind_eq_ok.mp parsed
    obtain ⟨_, _, _, items⟩ := parser_bind_eq_ok.mp parsed
    intro header member
    obtain ⟨_, _, _, _, found⟩ := (deserializeItems_parsed items).2 header member
    exact deserializeBlockHeader_parsed found
  iterate 2 refine .ite (.into fun _ _ _ _ _ => trivial) ?_
  intro payload start used result
  cases result

theorem except_bind_eq_ok {α β : Type} {x : Except Error α} {f : α → Except Error β} {b : β}
    (result : x >>= f = .ok b) : ∃ a, x = .ok a ∧ f a = .ok b := by
  cases x with
  | error e => cases result
  | ok a => exact ⟨a, rfl, result⟩

theorem readHeader_length {stream rest : Bytes} {header : PacketHeader}
    (read : readHeader stream = .ok (header, rest)) : header.length.toNat ≤ maxPacketSize := by
  obtain ⟨magic, _, read⟩ := except_bind_eq_ok read
  obtain ⟨command, _, read⟩ := except_bind_eq_ok read
  obtain ⟨length, _, read⟩ := except_bind_eq_ok read
  obtain ⟨checksum, _, read⟩ := except_bind_eq_ok read
  dsimp only at read
  split at read
  · cases read
  · next small =>
    cases read
    exact Nat.le_of_not_gt small

/-- What a peer sends is checked. -/
theorem readPacket_checked {getArena : Nat → Arena} {stream rest : Bytes} {packet : Packet} {payload : ReceivedPayload}
    (read : readPacket sha256 getArena stream = .ok (.ok (packet, rest))) (sent : packet.payload = some payload) :
    packet.buffer.length ≤ maxPacketSize ∧ ∃ arena, payload.Checked sha256 packet.buffer arena := by
  unfold readPacket at read
  split at read
  · cases read
  · next header stream' atHeader =>
    have small := readHeader_length atHeader
    split at read
    · cases read
    · next buffer stream'' atBuffer =>
      obtain ⟨deserialized, parsed, read⟩ := Outcome.bind_eq_ok.mp read
      cases read
      have same : buffer.1.length = header.length.toNat := buffer.2
      refine ⟨same.trans_le small, getArena header.length.toNat, ?_⟩
      dsimp only at sent
      unfold deserializeOrError at parsed
      split at parsed
      · cases parsed
        cases sent
      · cases decoded : readPayload (m := Parser) sha256 buffer.1 header.checksum header.command
            (getArena header.length.toNat) 0 with
        | ok result =>
          rw [decoded] at parsed
          cases parsed
          dsimp only at sent
          obtain ⟨_, middle, _, decoded⟩ := parser_bind_eq_ok.mp decoded
          exact deserializePayload_checked payload middle result.2 (by rw [decoded, ← sent])
        | err =>
          rw [decoded] at parsed
          cases parsed
          cases sent
        | fault =>
          rw [decoded] at parsed
          cases parsed

/-- A block that a peer sends is one that its decoder accepts. -/
theorem readPacket_accepts {getArena : Nat → Arena} {stream rest : Bytes} {packet : Packet} {block : Block}
    (read : readPacket sha256 getArena stream = .ok (.ok (packet, rest)))
    (sent : packet.payload = some (.block block)) : Accepts sha256 packet.buffer block := by
  obtain ⟨small, arena, before, length, stop, accepted⟩ := readPacket_checked read sent
  exact ⟨small, arena, before, length, stop, accepted⟩

end Reading

/-- The check of the witness commitment panics only on a block without transactions. -/
theorem Accepts.txs_eq_nil {sha256 : Bytes → Hash} {bytes : Bytes} {block : Block}
    (accepts : Accepts sha256 bytes block) (panics : verifyWitnessCommitment sha256 block = .fault) :
    block.txs = [] := by
  obtain ⟨_, _, _, _, _, parsed⟩ := accepts
  have inputs := deserializeBlock_parsed parsed
  obtain ⟨header, txs⟩ := block
  cases txs with
  | nil => rfl
  | cons coinbase rest =>
    have complete : ∀ wits, coinbase.witnessData = some wits → wits ≠ [] := by
      rintro wits present rfl
      obtain ⟨nonempty, counts⟩ := inputs coinbase List.mem_cons_self
      exact nonempty (List.length_eq_zero_iff.mp (counts [] present).symm)
    cases found : coinbase.txouts.reverse.find? TxOut.commits with
    | none =>
      rw [verifyWitnessCommitment, List.head?_cons, Outcome.unwrap_some, Outcome.ok_bind, found] at panics
      cases panics
    | some txout => exact absurd panics (verifyWitnessCommitment_of_commits found complete).1

/-- The Merkle root in the header of an accepted block. -/
theorem Accepts.merkle {sha256 : Bytes → Hash} {bytes : Bytes} {block : Block}
    (accepts : Accepts sha256 bytes block) :
    intoRoot sha256 (block.txs.map (·.hash)) false = (block.header.merkleRoot, false) := by
  obtain ⟨_, _, _, _, _, result⟩ := accepts
  obtain ⟨⟨header, _⟩, _, _, result⟩ := parser_bind_eq_ok.mp result
  obtain ⟨rest, _, _, result⟩ := parser_bind_eq_ok.mp result
  obtain ⟨⟨txs, offset⟩, _, array, result⟩ := parser_bind_eq_ok.mp result
  obtain ⟨_, _, clean, result⟩ := parser_bind_eq_ok.mp result
  obtain ⟨_, _, same, result⟩ := parser_bind_eq_ok.mp result
  obtain ⟨total, _, _, result⟩ := parser_bind_eq_ok.mp result
  cases result
  exact Prod.ext (of_parser_ensure same) (of_parser_ensure clean)

theorem Accepts.hashed {sha256 : Bytes → Hash} {bytes : Bytes} {block : Block} (accepts : Accepts sha256 bytes block) :
    block.header.hash = digestTwice sha256 (hashedBytes block.header) := by
  obtain ⟨_, _, _, _, _, result⟩ := accepts
  obtain ⟨⟨header, _⟩, _, atHeader, result⟩ := parser_bind_eq_ok.mp result
  obtain ⟨rest, _, _, result⟩ := parser_bind_eq_ok.mp result
  obtain ⟨⟨txs, offset⟩, _, _, result⟩ := parser_bind_eq_ok.mp result
  obtain ⟨_, _, _, result⟩ := parser_bind_eq_ok.mp result
  obtain ⟨_, _, _, result⟩ := parser_bind_eq_ok.mp result
  obtain ⟨total, _, _, result⟩ := parser_bind_eq_ok.mp result
  cases result
  exact (deserializeBlockHeader_parsed atHeader).hashed

end Bitlens

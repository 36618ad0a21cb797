import Bitlens.Lib.Sha256
import Bitlens.ParserDemands
import Bitlens.PayloadToSend

namespace Bitlens.Lib.Follows
open Bitlens

variable {α : Type} (buffer : Bytes)

/-! The parser follows the heap decoder of each message. -/

theorem getBytes (width offset : Nat) : Follows (getBytes width buffer offset) (getBytes width buffer offset) :=
  .bind (.add _ _) fun _ => .orBail _

theorem getU16 (offset : Nat) : Follows (getU16 buffer offset) (getU16 buffer offset) :=
  .bind (.getBytes _ _ _) fun _ => .pure _

theorem getU16Le (offset : Nat) : Follows (getU16Le buffer offset) (getU16Le buffer offset) :=
  .bind (.getBytes _ _ _) fun _ => .pure _

theorem getU32Le (offset : Nat) : Follows (getU32Le buffer offset) (getU32Le buffer offset) :=
  .bind (.getBytes _ _ _) fun _ => .pure _

theorem getU64Le (offset : Nat) : Follows (getU64Le buffer offset) (getU64Le buffer offset) :=
  .bind (.getBytes _ _ _) fun _ => .pure _

theorem getHash (offset : Nat) : Follows (getHash buffer offset) (getHash buffer offset) :=
  .bind (.getBytes _ _ _) fun _ => .orBail _

theorem withOffset (offset : Nat) : Follows (withOffset buffer offset) (withOffset buffer offset) :=
  .orBail _

theorem deserializeVarint : Follows (deserializeVarint buffer) (deserializeVarint buffer) := by
  unfold Bitlens.deserializeVarint
  cases buffer with
  | nil => exact .bail
  | cons leader rest =>
    refine .ite (.pure _) (.ite ?_ (.ite ?_ ?_))
    · exact .bind (.getU16Le _ _) fun _ => .pure _
    · exact .bind (.getU32Le _ _) fun _ => .pure _
    · exact .bind (.getU64Le _ _) fun _ => .pure _

theorem deserializeVarstr : Follows (deserializeVarstr buffer) (deserializeVarstr buffer) := by
  refine .bind (.deserializeVarint _) fun (length, offset) => .bind (.addLength _ _) fun _ => ?_
  refine .bind (.ensure _) fun _ => .bind (.add _ _) fun _ => .bind (.unwrap _) fun _ => ?_
  exact .bind (.add _ _) fun _ => .pure _

theorem deserializeItems {item : ∀ {m : Type → Type} [Decoding m], Bytes → m (α × Nat)}
    (follows : ∀ buffer, Follows (item buffer) (item buffer)) (count offset : Nat) :
    Follows (deserializeItems item buffer count offset) (deserializeItems item buffer count offset) := by
  induction count generalizing offset with
  | zero => exact .pure _
  | succ count ih =>
    refine .bind (.withOffset _ _) fun rest => .bind (follows rest) fun (value, consumed) => ?_
    exact .bind (.add _ _) fun next => .bind (ih next) fun _ => .pure _

theorem deserializeArray {item : ∀ {m : Type → Type} [Decoding m], Bytes → m (α × Nat)} {layout : Layout}
    (follows : ∀ buffer, Follows (item buffer) (item buffer)) :
    Follows (deserializeArray layout item buffer) (deserializeArray layout item buffer) :=
  .bind (.deserializeVarint _) fun (_, _) => .bind (.tryAllocArray _ _) fun _ => .deserializeItems _ follows _ _

theorem deserializeNetAddrShort : Follows (deserializeNetAddrShort buffer) (deserializeNetAddrShort buffer) := by
  refine .bind (.orBail _) fun _ => .bind (.getU64Le _ _) fun _ => .bind (.unwrap _) fun _ => ?_
  exact .bind (.getU16 _ _) fun _ => .pure _

theorem deserializeNetAddr : Follows (deserializeNetAddr buffer) (deserializeNetAddr buffer) := by
  refine .bind (.orBail _) fun _ => .bind (.getU32Le _ _) fun _ => .bind (.unwrap _) fun _ => ?_
  exact .bind (.getU64Le _ _) fun _ => .bind (.getU16 _ _) fun _ => .pure _

theorem deserializeNetAddrV2 : Follows (deserializeNetAddrV2 buffer) (deserializeNetAddrV2 buffer) := by
  refine .bind (.getU32Le _ _) fun _ => .bind (.withOffset _ _) fun _ => .bind (.deserializeVarint _) fun (_, _) => ?_
  refine .bind (.add _ _) fun _ => .bind (.orBail _) fun _ => .bind (.orBail _) fun _ => .bind (.add _ _) fun _ => ?_
  refine .bind (.withOffset _ _) fun _ => .bind (.deserializeVarstr _) fun (_, _) => .bind (.add _ _) fun _ => ?_
  exact .bind (.getU16 _ _) fun _ => .bind (.add _ _) fun _ => .pure _

theorem deserializeInventoryVector :
    Follows (deserializeInventoryVector buffer) (deserializeInventoryVector buffer) :=
  .bind (.getU32Le _ _) fun _ => .bind (.orBail _) fun _ => .bind (.getHash _ _) fun _ => .pure _

theorem announcedByte (version : UInt32) (offset : Nat) :
    Follows (announcedByte version buffer offset) (announcedByte version buffer offset) :=
  .ite (.bind (.add _ _) fun _ => .pure _) (.pure _)

theorem deserializeVersion : Follows (deserializeVersion buffer) (deserializeVersion buffer) := by
  refine .bind (.getU32Le _ _) fun version => .bind (.getU64Le _ _) fun _ => .bind (.getU64Le _ _) fun _ => ?_
  refine .bind (.withOffset _ _) fun _ => .bind (.deserializeNetAddrShort _) fun (_, _) => ?_
  refine .bind (.withOffset _ _) fun _ => .bind (.deserializeNetAddrShort _) fun (_, _) => ?_
  refine .bind (.getU64Le _ _) fun _ => .bind (.withOffset _ _) fun _ => .bind (.deserializeVarstr _) fun (_, _) => ?_
  refine .bind (.add _ _) fun _ => .bind (.getU32Le _ _) fun _ => .bind (.announcedByte _ _ _) fun _ => ?_
  exact .bind (.add _ _) fun _ => .pure _

theorem deserializeLocator (count offset : Nat) :
    Follows (deserializeLocator buffer count offset) (deserializeLocator buffer count offset) := by
  induction count generalizing offset with
  | zero => exact .pure _
  | succ count ih =>
    exact .bind (.getHash _ _) fun _ => .bind (.add _ _) fun next => .bind (ih next) fun _ => .pure _

theorem deserializeGetHeaders : Follows (deserializeGetHeaders buffer) (deserializeGetHeaders buffer) := by
  refine .bind (.getU32Le _ _) fun _ => .bind (.withOffset _ _) fun _ => .bind (.deserializeVarint _) fun (_, _) => ?_
  refine .bind (.add _ _) fun _ => .bind (.tryAllocArray _ _) fun _ => .bind (.deserializeLocator _ _ _) fun (_, _) => ?_
  exact .bind (.getHash _ _) fun _ => .bind (.add _ _) fun _ => .pure _

theorem deserializeEmpty : Follows (deserializeEmpty buffer) (deserializeEmpty buffer) :=
  .pure _

theorem deserializeNonce : Follows (deserializeNonce buffer) (deserializeNonce buffer) :=
  .bind (.getU64Le _ _) fun _ => .pure _

theorem deserializeBlockHeader (sha256 : Bytes → Hash) :
    Follows (deserializeBlockHeader sha256 buffer) (deserializeBlockHeader sha256 buffer) := by
  refine .bind (.getU32Le _ _) fun _ => .bind (.getHash _ _) fun _ => .bind (.getHash _ _) fun _ => ?_
  refine .bind (.getU32Le _ _) fun _ => .bind (.getU32Le _ _) fun _ => .bind (.getU32Le _ _) fun _ => ?_
  refine .bind (.withOffset _ _) fun _ => .bind (.deserializeVarint _) fun (_, _) => .bind (.unwrap _) fun _ => ?_
  exact .bind (.ensure _) fun _ => .bind (.add _ _) fun _ => .pure _

theorem deserializeInto {item : Bytes → Parser (α × Nat)} {item' : Bytes → Outcome (α × Nat)} {layout : Layout}
    {received : α → ReceivedPayload} (follows : Follows (item buffer) (item' buffer)) :
    Follows (deserializeInto layout item buffer received) (deserializeInto layout item' buffer received) :=
  .bind (.tryAlloc _) fun _ => .bind follows fun _ => .pure _

end Bitlens.Lib.Follows

namespace Bitlens
open Lib

variable {buffer front rest : Bytes} {offset : Nat}

/-! Each encoding is read back from the front of any continuation. -/

theorem orBail_ok {α : Type} (a : α) : (orBail (some a) : Outcome α) = .ok a := rfl

theorem unwrap_ok {α : Type} (a : α) : (Decoding.unwrap (some a) : Outcome α) = .ok a := rfl

theorem getU16_ok {value : UInt16} (split : buffer = front ++ (beBytes 2 value.toNat ++ rest))
    (start : front.length = offset) (small : offset + 2 < 2 ^ 64) :
    (getU16 buffer offset : Outcome UInt16) = .ok value := by
  have length : (beBytes 2 value.toNat).length = 2 := by rw [beBytes, List.length_reverse, length_leBytes]
  rw [getU16, getBytes_ok split start length small, Outcome.ok_bind, beNat, beBytes, List.reverse_reverse, leNat_leBytes]
  exact congrArg Outcome.ok (UInt16.toNat_inj.mp (by simp))

theorem length_serializeNetAddrShort (v : NetAddrShort) : (serializeNetAddrShort v).length = 26 := by
  simp only [serializeNetAddrShort, beBytes, List.length_append, List.length_reverse, length_leBytes, v.addr.2]

theorem decodes_netAddrShort (v : NetAddrShort) : Decodes deserializeNetAddrShort (serializeNetAddrShort v) v := by
  intro rest
  have shape : serializeNetAddrShort v ++ rest =
      leBytes 8 v.services.toNat ++ (v.addr.1 ++ (beBytes 2 v.port.toNat ++ rest)) := by
    simp only [serializeNetAddrShort, List.append_assoc]
  rw [length_serializeNetAddrShort]
  generalize serializeNetAddrShort v ++ rest = buffer at shape
  have addr : getRange buffer 8 24 = some v.addr.1 := getRange_split shape (length_leBytes 8 _) v.addr.2
  have services : (getU64Le buffer 0 : Outcome UInt64) = .ok v.services := @getU64Le_ok buffer [] _ 0 _ shape rfl (by decide)
  have port := getU16_ok (shape.trans (List.append_assoc _ _ _).symm)
    (by rw [List.length_append, length_leBytes, v.addr.2]) (by decide)
  have array : ByteArr.ofBytes 16 v.addr.1 = some v.addr := dif_pos v.addr.2
  rw [deserializeNetAddrShort, addr, orBail_ok, Outcome.ok_bind, services, Outcome.ok_bind, array, unwrap_ok,
    Outcome.ok_bind, port]
  rfl

theorem length_serializeNetAddr (v : NetAddr) : (serializeNetAddr v).length = 30 := by
  simp only [serializeNetAddr, beBytes, List.length_append, List.length_reverse, length_leBytes, v.addr.2]

theorem decodes_netAddr (v : NetAddr) : Decodes deserializeNetAddr (serializeNetAddr v) v := by
  intro rest
  have shape : serializeNetAddr v ++ rest =
      leBytes 4 v.time.toNat ++ (leBytes 8 v.services.toNat ++ (v.addr.1 ++ (beBytes 2 v.port.toNat ++ rest))) := by
    simp only [serializeNetAddr, List.append_assoc]
  rw [length_serializeNetAddr]
  generalize serializeNetAddr v ++ rest = buffer at shape
  have atAddr := shape.trans (List.append_assoc _ _ _).symm
  have head : (leBytes 4 v.time.toNat ++ leBytes 8 v.services.toNat).length = 12 := by
    rw [List.length_append, length_leBytes, length_leBytes]
  have addr : getRange buffer 12 28 = some v.addr.1 := getRange_split atAddr head v.addr.2
  have time : (getU32Le buffer 0 : Outcome UInt32) = .ok v.time := @getU32Le_ok buffer [] _ 0 _ shape rfl (by decide)
  have services := getU64Le_ok shape (length_leBytes 4 _) (by decide)
  have port := getU16_ok (atAddr.trans (List.append_assoc _ _ _).symm)
    (by rw [List.length_append, head, v.addr.2]) (by decide)
  have array : ByteArr.ofBytes 16 v.addr.1 = some v.addr := dif_pos v.addr.2
  rw [deserializeNetAddr, addr, orBail_ok, Outcome.ok_bind, time, Outcome.ok_bind, array, unwrap_ok, Outcome.ok_bind,
    services, Outcome.ok_bind, port]
  rfl

theorem NetworkId.fromU8_toU8 (id : NetworkId) : fromU8 id.toU8 = some id := by
  cases id <;> rfl

theorem InventoryVectorType.fromU32_toU32 (invType : InventoryVectorType) : fromU32 invType.toU32 = some invType := by
  cases invType <;> rfl

theorem decodes_inventoryVector (v : InventoryVector) :
    Decodes deserializeInventoryVector (serializeInventoryVector v) v := by
  intro rest
  have length : (serializeInventoryVector v).length = 36 := by
    rw [serializeInventoryVector, List.length_append, length_leBytes, v.hash.2]
  have shape : serializeInventoryVector v ++ rest = leBytes 4 v.invType.toU32.toNat ++ (v.hash.1 ++ rest) := by
    rw [serializeInventoryVector, List.append_assoc]
  rw [length]
  generalize serializeInventoryVector v ++ rest = buffer at shape
  have rawType : (getU32Le buffer 0 : Outcome UInt32) = .ok v.invType.toU32 :=
    @getU32Le_ok buffer [] _ 0 _ shape rfl (by decide)
  have hash := getHash_ok shape (length_leBytes 4 _) (by decide)
  rw [deserializeInventoryVector, rawType, Outcome.ok_bind, v.invType.fromU32_toU32, orBail_ok, Outcome.ok_bind, hash]
  rfl

theorem decodes_netAddrV2 {v : NetAddrV2} (small : v.address.length < 2 ^ 62) :
    Decodes deserializeNetAddrV2 (serializeNetAddrV2 v) v := by
  intro rest
  have varint := length_serializeVarint_le v.services
  have prefixLength := length_serializeVarint_le (UInt64.ofNat v.address.length)
  have address : (serializeVarstr v.address).length < 2 ^ 63 := by
    rw [serializeVarstr, List.length_append]
    omega
  have length : (serializeNetAddrV2 v).length = (serializeVarint v.services).length + 4 + 1 + (serializeVarstr v.address).length + 2 := by
    simp only [serializeNetAddrV2, beBytes, List.length_append, List.length_reverse, length_leBytes, List.length_singleton]
    omega
  have shape : serializeNetAddrV2 v ++ rest = leBytes 4 v.time.toNat ++ (serializeVarint v.services ++
      ([v.networkId.toU8] ++ (serializeVarstr v.address ++ (beBytes 2 v.port.toNat ++ rest)))) := by
    simp only [serializeNetAddrV2, List.append_assoc]
  rw [length]
  generalize serializeNetAddrV2 v ++ rest = buffer at shape
  have time : (getU32Le buffer 0 : Outcome UInt32) = .ok v.time := @getU32Le_ok buffer [] _ 0 _ shape rfl (by decide)
  have behindTime := withOffset_ok shape (length_leBytes 4 _)
  have atId := shape.trans (List.append_assoc _ _ _).symm
  have idLength : (leBytes 4 v.time.toNat ++ serializeVarint v.services).length = (serializeVarint v.services).length + 4 := by
    rw [List.length_append, length_leBytes, Nat.add_comm]
  have id : buffer[(serializeVarint v.services).length + 4]? = some v.networkId.toU8 := by
    rw [atId, List.getElem?_append_right (by omega), idLength, Nat.sub_self]
    rfl
  have atAddress := atId.trans (List.append_assoc _ _ _).symm
  have addressLength : (leBytes 4 v.time.toNat ++ serializeVarint v.services ++ [v.networkId.toU8]).length =
      (serializeVarint v.services).length + 4 + 1 := by
    rw [List.length_append, idLength, List.length_singleton]
  have behindId := withOffset_ok atAddress addressLength
  have port := getU16_ok (atAddress.trans (List.append_assoc _ _ _).symm)
    (show _ = (serializeVarint v.services).length + 4 + 1 + (serializeVarstr v.address).length by
      rw [List.length_append, addressLength]) (by omega)
  rw [deserializeNetAddrV2, time, Outcome.ok_bind, behindTime, Outcome.ok_bind, decodes_varint, Outcome.ok_bind]
  dsimp only
  rw [add_ok (by omega), Outcome.ok_bind, id, orBail_ok, Outcome.ok_bind, v.networkId.fromU8_toU8, orBail_ok,
    Outcome.ok_bind, add_ok (by omega), Outcome.ok_bind, behindId, Outcome.ok_bind, decodes_varstr (by omega),
    Outcome.ok_bind]
  dsimp only
  rw [add_ok (by omega), Outcome.ok_bind, port, Outcome.ok_bind, add_ok (by omega)]
  rfl

/-- A version message is read as a whole: its last byte is optional. -/
theorem deserializeVersion_ok {v : Version} (small : v.userAgent.length < 2 ^ 62)
    (flag : v.version ≥ 70001 ∨ v.announceRelayedTransactions = false) :
    ∃ consumed, deserializeVersion (serializeVersion v) = Outcome.ok (v, consumed) := by
  have prefixLength := length_serializeVarint_le (UInt64.ofNat v.userAgent.length)
  have userAgent : (serializeVarstr v.userAgent).length < 2 ^ 63 := by
    rw [serializeVarstr, List.length_append]
    omega
  have recvLength := length_serializeNetAddrShort v.addrrecv
  have fromLength := length_serializeNetAddrShort v.addrfrom
  obtain ⟨last, ending⟩ : ∃ last, last = if v.version ≥ 70001 then [boolByte v.announceRelayedTransactions] else [] :=
    ⟨_, rfl⟩
  have shape : serializeVersion v = leBytes 4 v.version.toNat ++ (leBytes 8 v.services.toNat ++
      (leBytes 8 v.timestamp.toNat ++ (serializeNetAddrShort v.addrrecv ++ (serializeNetAddrShort v.addrfrom ++
        (leBytes 8 v.nonce.toNat ++ (serializeVarstr v.userAgent ++ (leBytes 4 v.startHeight.toNat ++ last))))))) := by
    rw [ending]
    simp only [serializeVersion, List.append_assoc]
  generalize serializeVersion v = buffer at shape
  have atServices := shape
  have atTimestamp := atServices.trans (List.append_assoc _ _ _).symm
  have atRecv := atTimestamp.trans (List.append_assoc _ _ _).symm
  have atFrom := atRecv.trans (List.append_assoc _ _ _).symm
  have atNonce := atFrom.trans (List.append_assoc _ _ _).symm
  have atAgent := atNonce.trans (List.append_assoc _ _ _).symm
  have atHeight := atAgent.trans (List.append_assoc _ _ _).symm
  have atLast := atHeight.trans (List.append_assoc _ _ _).symm
  have version : (getU32Le buffer 0 : Outcome UInt32) = .ok v.version := @getU32Le_ok buffer [] _ 0 _ shape rfl (by decide)
  have services := getU64Le_ok atServices (length_leBytes 4 _) (by decide)
  have timestamp := getU64Le_ok atTimestamp (by rw [List.length_append, length_leBytes, length_leBytes]) (by decide)
  have behindTimestamp := withOffset_ok atRecv (by simp only [List.length_append, length_leBytes]; rfl)
  have behindRecv := withOffset_ok atFrom (by simp only [List.length_append, length_leBytes, recvLength]; rfl)
  have nonce := getU64Le_ok atNonce (by simp only [List.length_append, length_leBytes, recvLength, fromLength]; rfl) (by decide)
  have behindNonce := withOffset_ok atAgent
    (by simp only [List.length_append, length_leBytes, recvLength, fromLength]; rfl)
  have heightStart := getU32Le_ok atHeight (show _ = 80 + (serializeVarstr v.userAgent).length by
    simp only [List.length_append, length_leBytes, recvLength, fromLength]) (by omega)
  have announced : ∃ byte, announcedByte v.version buffer (serializeVarstr v.userAgent).length = Outcome.ok byte ∧
      byte.any (· ≠ 0) = v.announceRelayedTransactions := by
    unfold announcedByte
    by_cases recent : v.version ≥ 70001
    · rw [if_pos recent, add_ok (by omega), Outcome.ok_bind]
      rw [if_pos recent] at ending
      refine ⟨some (boolByte v.announceRelayedTransactions), ?_, ?_⟩
      · have length : (leBytes 4 v.version.toNat ++ leBytes 8 v.services.toNat ++ leBytes 8 v.timestamp.toNat ++
            serializeNetAddrShort v.addrrecv ++ serializeNetAddrShort v.addrfrom ++ leBytes 8 v.nonce.toNat ++
            serializeVarstr v.userAgent ++ leBytes 4 v.startHeight.toNat).length =
              84 + (serializeVarstr v.userAgent).length := by
          simp only [List.length_append, length_leBytes, recvLength, fromLength]
          omega
        rw [atLast, List.getElem?_append_right (by omega), length, Nat.sub_self, ending]
        rfl
      · cases v.announceRelayedTransactions <;> rfl
    · rw [if_neg recent]
      exact ⟨none, rfl, (flag.resolve_left recent).symm⟩
  obtain ⟨byte, read, value⟩ := announced
  refine ⟨(serializeVarstr v.userAgent).length + (if byte.isSome then 85 else 84), ?_⟩
  have end85 : (if byte.isSome then 85 else 84) ≤ 85 := by split <;> omega
  rw [deserializeVersion, version, Outcome.ok_bind, services, Outcome.ok_bind, timestamp, Outcome.ok_bind,
    behindTimestamp, Outcome.ok_bind, decodes_netAddrShort, Outcome.ok_bind]
  dsimp only
  rw [behindRecv, Outcome.ok_bind, decodes_netAddrShort, Outcome.ok_bind]
  dsimp only
  rw [nonce, Outcome.ok_bind, behindNonce, Outcome.ok_bind, decodes_varstr (by omega), Outcome.ok_bind]
  dsimp only
  rw [add_ok (by omega), Outcome.ok_bind, heightStart, Outcome.ok_bind, read, Outcome.ok_bind, add_ok (by omega),
    Outcome.ok_bind, value]
  rfl

theorem decodes_nonce (nonce : UInt64) : deserializeNonce (serializeNonce nonce) = Outcome.ok (nonce, 8) := by
  have read : (getU64Le (serializeNonce nonce) 0 : Outcome UInt64) = .ok nonce :=
    @getU64Le_ok (serializeNonce nonce) [] [] 0 nonce (List.append_nil _).symm rfl (by decide)
  rw [deserializeNonce, read]
  rfl

theorem deserializeLocator_ok {hashes : List Hash}
    (split : buffer = front ++ (hashes.flatMap (fun hash => hash.1) ++ rest)) (start : front.length = offset)
    (small : offset + 32 * hashes.length < 2 ^ 64) :
    deserializeLocator buffer hashes.length offset = Outcome.ok (hashes, offset + 32 * hashes.length) := by
  induction hashes generalizing front offset with
  | nil => rfl
  | cons hash hashes ih =>
    rw [List.length_cons] at small ⊢
    rw [List.flatMap_cons, List.append_assoc] at split
    have next := ih (split.trans (List.append_assoc _ _ _).symm)
      (show _ = offset + 32 by rw [List.length_append, start, hash.2]) (by omega)
    rw [deserializeLocator, getHash_ok split start (by omega), Outcome.ok_bind, add_ok (by omega), Outcome.ok_bind, next,
      Outcome.ok_bind]
    dsimp only
    rw [show offset + 32 + 32 * hashes.length = offset + 32 * (hashes.length + 1) by omega]
    rfl

theorem decodes_getHeaders {v : GetHeaders} (small : v.blockLocator.length < 2 ^ 40) :
    Decodes deserializeGetHeaders (serializeGetHeaders v) v := by
  intro rest
  have varint := length_serializeVarint_le (UInt64.ofNat v.blockLocator.length)
  have hashes : (v.blockLocator.flatMap fun hash => hash.1).length = 32 * v.blockLocator.length :=
    length_flatMap_const _ fun hash _ => hash.2
  have count : (UInt64.ofNat v.blockLocator.length).toNat = v.blockLocator.length := toNat_ofNat_length (by omega)
  have shape : serializeGetHeaders v ++ rest = leBytes 4 v.version.toNat ++
      (serializeVarint (UInt64.ofNat v.blockLocator.length) ++ (v.blockLocator.flatMap (fun hash => hash.1) ++
        (v.hashStop.1 ++ rest))) := by
    simp only [serializeGetHeaders, serializeArray, List.append_assoc]
  have length : (serializeGetHeaders v).length =
      (serializeVarint (UInt64.ofNat v.blockLocator.length)).length + 4 + 32 * v.blockLocator.length + 32 := by
    simp only [serializeGetHeaders, serializeArray, List.length_append, length_leBytes, hashes, v.hashStop.2]
    omega
  rw [length]
  generalize serializeGetHeaders v ++ rest = buffer at shape
  have atHashes := shape.trans (List.append_assoc _ _ _).symm
  have head : (leBytes 4 v.version.toNat ++ serializeVarint (UInt64.ofNat v.blockLocator.length)).length =
      (serializeVarint (UInt64.ofNat v.blockLocator.length)).length + 4 := by
    rw [List.length_append, length_leBytes, Nat.add_comm]
  have version : (getU32Le buffer 0 : Outcome UInt32) = .ok v.version := @getU32Le_ok buffer [] _ 0 _ shape rfl (by decide)
  have behindVersion := withOffset_ok shape (length_leBytes 4 _)
  have locator := deserializeLocator_ok atHashes head (by omega)
  have hashStop := getHash_ok (atHashes.trans (List.append_assoc _ _ _).symm)
    (show _ = (serializeVarint (UInt64.ofNat v.blockLocator.length)).length + 4 + 32 * v.blockLocator.length by
      rw [List.length_append, head, hashes]) (by omega)
  rw [deserializeGetHeaders, version, Outcome.ok_bind, behindVersion, Outcome.ok_bind, decodes_varint, Outcome.ok_bind]
  dsimp only
  rw [add_ok (by omega), Outcome.ok_bind, tryAllocArray_ok, Outcome.ok_bind, count, locator, Outcome.ok_bind]
  dsimp only
  rw [hashStop, Outcome.ok_bind, add_ok (by omega)]
  rfl

theorem length_hashedBytes (header : BlockHeaderOwned) : (hashedBytes header).length = 80 := by
  simp only [hashedBytes, List.length_append, length_leBytes, header.parent.2, header.merkleRoot.2]

theorem serializeBlockHeader_eq (header : BlockHeaderOwned) :
    serializeBlockHeader header = hashedBytes header ++ serializeVarint header.txsCount := rfl

theorem decodes_blockHeader {sha256 : Bytes → Hash} {header : BlockHeaderOwned}
    (hashed : header.hash = digestTwice sha256 (hashedBytes header)) (valid : isValid header.hash header.bits) :
    Decodes (deserializeBlockHeader sha256) (serializeBlockHeader header) header := by
  intro rest
  have varint := length_serializeVarint_le header.txsCount
  have eighty := length_hashedBytes header
  have whole : serializeBlockHeader header ++ rest = [] ++ (hashedBytes header ++ (serializeVarint header.txsCount ++ rest)) := by
    rw [serializeBlockHeader_eq, List.append_assoc]
    rfl
  have shape : serializeBlockHeader header ++ rest = leBytes 4 header.version.toNat ++ (header.parent.1 ++
      (header.merkleRoot.1 ++ (leBytes 4 header.timestamp.toNat ++ (leBytes 4 header.bits.toNat ++
        (leBytes 4 header.nonce.toNat ++ (serializeVarint header.txsCount ++ rest)))))) := by
    simp only [serializeBlockHeader, List.append_assoc]
  have length : (serializeBlockHeader header).length = 80 + (serializeVarint header.txsCount).length := by
    rw [serializeBlockHeader_eq, List.length_append, eighty]
  rw [length]
  generalize serializeBlockHeader header ++ rest = buffer at shape whole
  have atRoot := shape.trans (List.append_assoc _ _ _).symm
  have atTime := atRoot.trans (List.append_assoc _ _ _).symm
  have atBits := atTime.trans (List.append_assoc _ _ _).symm
  have atNonce := atBits.trans (List.append_assoc _ _ _).symm
  have version : (getU32Le buffer 0 : Outcome UInt32) = .ok header.version :=
    @getU32Le_ok buffer [] _ 0 _ shape rfl (by decide)
  have parent := getHash_ok shape (length_leBytes 4 _) (by decide)
  have merkleRoot := getHash_ok atRoot (by rw [List.length_append, length_leBytes, header.parent.2]) (by decide)
  have timestamp := getU32Le_ok atTime
    (by simp only [List.length_append, length_leBytes, header.parent.2, header.merkleRoot.2]; rfl) (by decide)
  have bits := getU32Le_ok atBits
    (by simp only [List.length_append, length_leBytes, header.parent.2, header.merkleRoot.2]; rfl) (by decide)
  have nonce := getU32Le_ok atNonce
    (by simp only [List.length_append, length_leBytes, header.parent.2, header.merkleRoot.2]; rfl) (by decide)
  have behind := withOffset_ok (whole.trans (List.nil_append _)) eighty
  have bytes : getRange buffer 0 80 = some (hashedBytes header) := getRange_split whole rfl eighty
  rw [deserializeBlockHeader, version, Outcome.ok_bind, parent, Outcome.ok_bind, merkleRoot, Outcome.ok_bind, timestamp,
    Outcome.ok_bind, bits, Outcome.ok_bind, nonce, Outcome.ok_bind, behind, Outcome.ok_bind, decodes_varint, Outcome.ok_bind]
  dsimp only
  rw [bytes, unwrap_ok, Outcome.ok_bind, ← hashed, ensure_ok valid, Outcome.ok_bind, add_ok (by omega)]
  rfl

/-! Messages. -/

variable {sha256 : Bytes → Hash} {arena : Arena} {consumed : Nat}

theorem short_array {α : Type} {encode : α → Bytes} {xs : List α} (positive : ∀ x ∈ xs, 0 < (encode x).length)
    (short : (serializeArray encode xs).length ≤ maxPacketSize) :
    (serializeArray encode xs).length < 2 ^ 63 ∧ xs.length < 2 ^ 40 ∧ ∀ x ∈ xs, (encode x).length < 2 ^ 40 := by
  have count := length_le_flatMap positive
  rw [maxPacketSize] at short
  refine ⟨by omega, ?_, fun x member => ?_⟩
  · rw [serializeArray, List.length_append] at short
    omega
  · have inside := @length_le_flatMap_of_mem _ encode xs x member
    rw [serializeArray, List.length_append] at short
    omega

/-- An array whose items are decoded is decoded from exactly its bytes. -/
theorem deserializeArray_ok {α : Type} {layout : Layout} {item : Bytes → Outcome (α × Nat)} {encode : α → Bytes} {xs : List α}
    (positive : ∀ x ∈ xs, 0 < (encode x).length) (short : (serializeArray encode xs).length ≤ maxPacketSize)
    (decodes : ∀ x ∈ xs, Decodes item (encode x) x) :
    ∃ read, deserializeArray layout item (serializeArray encode xs) = .ok (xs, read) := by
  obtain ⟨small, count, _⟩ := short_array positive short
  have array := @decodes_array _ layout item encode xs decodes (lt_trans small (by decide)) (by omega) []
  rw [List.append_nil] at array
  exact ⟨_, array⟩

theorem deserializeVersion_short {v : Version} (short : (serializeVersion v).length ≤ maxPacketSize)
    (flag : v.version ≥ 70001 ∨ v.announceRelayedTransactions = false) :
    ∃ read, deserializeVersion (serializeVersion v) = Outcome.ok (v, read) := by
  have agent : v.userAgent.length < 2 ^ 62 := by
    rw [maxPacketSize] at short
    simp only [serializeVersion, serializeVarstr, List.length_append] at short
    omega
  exact deserializeVersion_ok agent flag

theorem deserializeGetHeaders_short {v : GetHeaders} (short : (serializeGetHeaders v).length ≤ maxPacketSize) :
    ∃ read, deserializeGetHeaders (serializeGetHeaders v) = Outcome.ok (v, read) := by
  have hashes := @length_flatMap_const _ (fun hash : Hash => hash.1) 32 v.blockLocator fun hash _ => hash.2
  have count : v.blockLocator.length < 2 ^ 40 := by
    rw [maxPacketSize] at short
    simp only [serializeGetHeaders, serializeArray, List.length_append, hashes] at short
    omega
  have read := decodes_getHeaders count []
  rw [List.append_nil] at read
  exact ⟨_, read⟩

theorem deserializeAddr_short {inner : List NetAddr} (short : (serializeArray serializeNetAddr inner).length ≤ maxPacketSize) :
    ∃ read, deserializeArray netAddrLayout deserializeNetAddr (serializeArray serializeNetAddr inner) =
      Outcome.ok (inner, read) :=
  deserializeArray_ok (fun v _ => by rw [length_serializeNetAddr]; omega) short fun v _ => decodes_netAddr v

theorem deserializeAddrV2_short {inner : List NetAddrV2}
    (short : (serializeArray serializeNetAddrV2 inner).length ≤ maxPacketSize) :
    ∃ read, deserializeArray netAddrV2Layout deserializeNetAddrV2 (serializeArray serializeNetAddrV2 inner) =
      Outcome.ok (inner, read) := by
  have positive : ∀ v ∈ inner, 0 < (serializeNetAddrV2 v).length := fun v _ => by
    simp only [serializeNetAddrV2, List.length_append, length_leBytes]
    omega
  refine deserializeArray_ok positive short fun v member => decodes_netAddrV2 ?_
  have small := (short_array positive short).2.2 v member
  simp only [serializeNetAddrV2, serializeVarstr, List.length_append] at small
  omega

theorem deserializeHeaders_short {sha256 : Bytes → Hash} {inner : List BlockHeaderOwned}
    (short : (serializeArray serializeBlockHeader inner).length ≤ maxPacketSize)
    (carried : ∀ header ∈ inner, header.hash = digestTwice sha256 (hashedBytes header) ∧ isValid header.hash header.bits) :
    ∃ read, deserializeArray headerLayout (deserializeBlockHeader sha256) (serializeArray serializeBlockHeader inner) =
      Outcome.ok (inner, read) :=
  deserializeArray_ok (fun header _ => by rw [serializeBlockHeader_eq, List.length_append, length_hashedBytes]; omega) short
    fun header member => decodes_blockHeader (carried header member).1 (carried header member).2

theorem deserializeInventory_short {inner : List InventoryVector}
    (short : (serializeArray serializeInventoryVector inner).length ≤ maxPacketSize) :
    ∃ read, deserializeArray inventoryVectorLayout deserializeInventoryVector
      (serializeArray serializeInventoryVector inner) = Outcome.ok (inner, read) :=
  deserializeArray_ok (fun v _ => by rw [serializeInventoryVector, List.length_append, length_leBytes]; omega) short
    fun v _ => decodes_inventoryVector v

/-- An arm of the dispatch that does not panic gives the message. -/
theorem received_of_arm {α : Type} {item : Bytes → Parser (α × Nat)} {item' : Bytes → Outcome (α × Nat)} {layout : Layout}
    {received : α → ReceivedPayload} {bytes : Bytes} {a : α} {result : Outcome (Option ReceivedPayload × Nat)}
    (returns : result ≠ .fault) (follows : Follows (item bytes) (item' bytes)) (read : ∃ n, item' bytes = .ok (a, n))
    (arm : result = deserializeInto layout item bytes received arena consumed) :
    ∃ used, result = .ok (some (received a), used) := by
  obtain ⟨n, read⟩ := read
  have into : deserializeInto layout item' bytes received = .ok (some (received a)) := by
    rw [deserializeInto, read]
    rfl
  rw [arm] at returns ⊢
  exact Follows.deserializeInto bytes follows arena consumed _ into returns

theorem checksum_ok (sha256 : Bytes → Hash) (bytes : Bytes) (arena : Arena) (consumed : Nat) :
    ensure (m := Parser) (shorthash sha256 bytes = shorthash sha256 bytes) arena consumed = .ok ((), consumed) := by
  rw [ensure, if_pos rfl]
  rfl

/-- A message whose bytes fit the memory is not a panic. -/
theorem returns_of_fits {p : PayloadToSend} (short : p.serialize.length ≤ maxPacketSize)
    (fits : arena.Fits consumed (demands sha256 p.serialize p.command)) :
    deserializePayload (m := Parser) sha256 p.serialize (shorthash sha256 p.serialize) p.command arena consumed ≠ .fault := by
  have agrees := @Agrees.deserializePayload p.serialize sha256 (shorthash sha256 p.serialize) p.command
    (by rw [maxPacketSize] at short; omega)
  exact fun fault => agrees.fault_iff.mp fault fits

/-- The dispatch by command: each message but `GetAddr` and `GetData` reaches its decoder. -/
theorem received_of_dispatched {p : PayloadToSend} (plain : p.Plain) (carried : p.Carried sha256)
    (short : p.serialize.length ≤ maxPacketSize)
    (fits : arena.Fits consumed (demands sha256 p.serialize p.command)) (dispatched : p.Dispatched) :
    Received sha256 arena consumed p := by
  have returns := returns_of_fits short fits
  have checked := checksum_ok sha256 p.serialize arena consumed
  have into : ∀ received : ReceivedPayload, received.toOwned = p →
      (∃ used, deserializePayload (m := Parser) sha256 p.serialize (shorthash sha256 p.serialize) p.command arena consumed =
        .ok (some received, used)) → Received sha256 arena consumed p :=
    fun received same ⟨used, result⟩ => ⟨received, used, result, same⟩
  have empty : ∀ received : ReceivedPayload, received.toOwned = p →
      deserializePayload (m := Parser) sha256 p.serialize (shorthash sha256 p.serialize) p.command arena consumed =
        deserializeInto (m := Parser) emptyLayout deserializeEmpty p.serialize (fun _ => received) arena consumed →
          Received sha256 arena consumed p :=
    fun received same arm => into received same
      (received_of_arm (a := ()) returns (.deserializeEmpty p.serialize) ⟨0, rfl⟩ arm)
  cases p with
  | tx v => cases plain
  | block v => cases plain
  | getAddr => cases dispatched
  | getData inner => cases dispatched
  | ping nonce =>
    exact into (.ping nonce) rfl (received_of_arm returns (.deserializeNonce _) ⟨8, decodes_nonce nonce⟩
      (parser_bind checked))
  | pong nonce =>
    exact into (.pong nonce) rfl (received_of_arm returns (.deserializeNonce _) ⟨8, decodes_nonce nonce⟩
      (parser_bind checked))
  | verAck => exact empty .verAck rfl (parser_bind checked)
  | sendHeaders => exact empty .sendHeaders rfl (parser_bind checked)
  | sendAddrV2 => exact empty .sendAddrV2 rfl (parser_bind checked)
  | version v =>
    exact into (.version v) rfl (received_of_arm returns (.deserializeVersion _) (deserializeVersion_short short carried)
      (parser_bind checked))
  | getHeaders v =>
    exact into (.getHeaders v) rfl (received_of_arm returns (.deserializeGetHeaders _) (deserializeGetHeaders_short short)
      (parser_bind checked))
  | addr inner =>
    exact into (.addr inner) rfl (received_of_arm returns (.deserializeArray _ .deserializeNetAddr)
      (deserializeAddr_short short) (parser_bind checked))
  | addrV2 inner =>
    exact into (.addrV2 inner) rfl (received_of_arm returns (.deserializeArray _ .deserializeNetAddrV2)
      (deserializeAddrV2_short short) (parser_bind checked))
  | headers inner =>
    exact into (.headers inner) rfl (received_of_arm returns
      (.deserializeArray _ fun buffer => .deserializeBlockHeader buffer sha256) (deserializeHeaders_short short carried)
      (parser_bind checked))
  | inv inner =>
    exact into (.inv inner) rfl (received_of_arm returns (.deserializeArray _ .deserializeInventoryVector)
      (deserializeInventory_short short) (parser_bind checked))
  | notFound inner =>
    exact into (.notFound inner) rfl (received_of_arm returns (.deserializeArray _ .deserializeInventoryVector)
      (deserializeInventory_short short) (parser_bind checked))

/-- A sent message comes back as it was exactly when the dispatch knows its command. -/
theorem received_iff (sha256 : Bytes → Hash) (arena : Arena) (consumed : Nat) (p : PayloadToSend) (plain : p.Plain)
    (carried : p.Carried sha256) (short : p.serialize.length ≤ maxPacketSize)
    (fits : arena.Fits consumed (demands sha256 p.serialize p.command)) :
    Received sha256 arena consumed p ↔ p.Dispatched := by
  constructor
  · intro ⟨received, used, result, same⟩
    have ignored : ¬ p.Dispatched → deserializePayload (m := Parser) sha256 p.serialize (shorthash sha256 p.serialize)
        p.command arena consumed = .ok (none, consumed) := by
      intro unknown
      cases p with
      | getAddr => exact parser_bind (checksum_ok sha256 _ arena consumed)
      | getData inner => exact parser_bind (checksum_ok sha256 _ arena consumed)
      | _ => exact absurd trivial unknown
    by_contra unknown
    rw [ignored unknown] at result
    cases result
  · exact received_of_dispatched plain carried short fits

/-- An inventory of one block. -/
theorem received_iff_inv : Received Sha256.sha256 smallArena 0 (.inv [⟨.block, ByteArr.fill 32 1⟩]) :=
  (received_iff Sha256.sha256 smallArena 0 (.inv [⟨.block, ByteArr.fill 32 1⟩]) trivial trivial (by decide)
    (by decide +kernel)).mpr trivial

theorem received_fails :
    ¬ ∀ (sha256 : Bytes → Hash) (arena : Arena) (consumed : Nat) (p : PayloadToSend), p.Plain → p.Carried sha256 →
      p.serialize.length ≤ maxPacketSize → arena.Fits consumed (demands sha256 p.serialize p.command) →
        Received sha256 arena consumed p := by
  intro claim
  obtain ⟨received, used, result, _⟩ :=
    claim Sha256.sha256 smallArena 0 (.getData [⟨.block, ByteArr.fill 32 1⟩]) trivial trivial (by decide)
      (by decide +kernel)
  have ignored := parser_bind (f := fun _ => (pure none : Parser (Option ReceivedPayload)))
    (checksum_ok Sha256.sha256 (PayloadToSend.getData [⟨.block, ByteArr.fill 32 1⟩]).serialize smallArena 0)
  cases result.symm.trans ignored

end Bitlens

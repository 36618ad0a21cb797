import Bitlens.PacketStream
import Bitlens.Lib.Quiet

namespace Bitlens.Lib.Quiet
open Bitlens

variable {α : Type} (buffer : Bytes) (offset : Nat)

theorem getBytes (width : Nat) : Quiet (getBytes width buffer offset) :=
  .bind (.add _ _) fun _ => .orBail _

theorem getU16Le : Quiet (getU16Le buffer offset) :=
  .bind (.getBytes _ _ _) fun _ => .pure _

theorem getU32Le : Quiet (getU32Le buffer offset) :=
  .bind (.getBytes _ _ _) fun _ => .pure _

theorem getU64Le : Quiet (getU64Le buffer offset) :=
  .bind (.getBytes _ _ _) fun _ => .pure _

theorem getHash : Quiet (getHash buffer offset) :=
  .bind (.getBytes _ _ _) fun _ => .orBail _

theorem withOffset : Quiet (withOffset buffer offset) :=
  .orBail _

theorem deserializeVarint : Quiet (deserializeVarint buffer) := by
  unfold Bitlens.deserializeVarint
  split
  · exact .bail
  · refine .ite (.pure _) (.ite ?_ (.ite ?_ ?_))
    · exact .bind (.getU16Le _ _) fun _ => .pure _
    · exact .bind (.getU32Le _ _) fun _ => .pure _
    · exact .bind (.getU64Le _ _) fun _ => .pure _

theorem deserializeBlockHeader (sha256 : Bytes → Hash) : Quiet (deserializeBlockHeader sha256 buffer) := by
  refine .bind (.getU32Le _ _) fun _ => .bind (.getHash _ _) fun _ => .bind (.getHash _ _) fun _ => ?_
  refine .bind (.getU32Le _ _) fun _ => .bind (.getU32Le _ _) fun _ => .bind (.getU32Le _ _) fun _ => ?_
  refine .bind (.withOffset _ _) fun _ => .bind (.deserializeVarint _) fun (_, _) => .bind (.unwrap _) fun _ => ?_
  exact .bind (.ensure _) fun _ => .bind (.add _ _) fun _ => .pure _

theorem deserializeItems {item : Bytes → Survey (α × Nat)} (quiet : ∀ bytes, Quiet (item bytes)) (count : Nat) :
    Quiet (deserializeItems item buffer count offset) := by
  induction count generalizing offset with
  | zero => exact .pure _
  | succ count ih =>
    refine .bind (.withOffset _ _) fun _ => .bind (quiet _) fun (_, _) => .bind (.add _ _) fun next => ?_
    exact .bind (ih next) fun (_, _) => .pure _

end Bitlens.Lib.Quiet

namespace Bitlens
open Lib

variable {sha256 : Bytes → Hash} {arena : Arena}

/-- An array of items that ask for nothing asks for its own memory. -/
theorem demands_array {α : Type} {item : Bytes → Survey (α × Nat)} {encode : α → Bytes} {layout : Layout}
    (quiet : ∀ bytes, Quiet (item bytes)) {xs : List α} (count : xs.length < 2 ^ 64) :
    (deserializeArray layout item (serializeArray encode xs)).demands =
      [.block (layout.size * xs.length) layout.align] := by
  have announced := result_of_quiet .deserializeVarint (.deserializeVarint _)
    (.deserializeVarint (serializeArray encode xs))
    (decodes_varint (UInt64.ofNat xs.length) (xs.flatMap encode))
  rw [deserializeArray, demands_bind (.deserializeVarint _) announced]
  change [Demand.block _ _] ++ (deserializeItems item _ _ _).demands = _
  rw [show (deserializeItems item _ _ _).demands = [] from Quiet.deserializeItems _ _ quiet _, toNat_ofNat_length count]
  rfl

theorem demands_into {α : Type} {item : Bytes → Survey (α × Nat)} {layout : Layout} {buffer : Bytes}
    {received : α → ReceivedPayload} : (deserializeInto layout item buffer received).demands =
      .block layout.size layout.align :: (item buffer).demands :=
  congrArg (Demand.block layout.size layout.align :: ·) (demands_bind_quiet fun (_, _) => .pure _)

theorem length_headers_bounds (headers : List BlockHeaderOwned) :
    1 + 81 * headers.length ≤ (PayloadToSend.headers headers).serialize.length ∧
      (PayloadToSend.headers headers).serialize.length ≤ 9 + 89 * headers.length := by
  have each : ∀ header, 81 ≤ (serializeBlockHeader header).length ∧ (serializeBlockHeader header).length ≤ 89 := by
    intro header
    have least := length_serializeVarint_pos header.txsCount
    have most := length_serializeVarint_le header.txsCount
    rw [serializeBlockHeader_eq, List.length_append, length_hashedBytes]
    omega
  have total : 81 * headers.length ≤ (headers.flatMap serializeBlockHeader).length ∧
      (headers.flatMap serializeBlockHeader).length ≤ 89 * headers.length := by
    induction headers with
    | nil => simp
    | cons header headers ih =>
      have one := each header
      rw [List.flatMap_cons, List.length_append, List.length_cons]
      omega
  have least := length_serializeVarint_pos (UInt64.ofNat headers.length)
  have most := length_serializeVarint_le (UInt64.ofNat headers.length)
  rw [PayloadToSend.serialize, serializeArray, List.length_append]
  omega

theorem demands_headers (headers : List BlockHeaderOwned) (count : headers.length < 2 ^ 64) :
    demands sha256 (PayloadToSend.headers headers).serialize (PayloadToSend.headers headers).command =
      [.block 16 8, .block (72 * headers.length) 8] := by
  have array : (deserializeArray (m := Survey) headerLayout (deserializeBlockHeader sha256)
      (serializeArray serializeBlockHeader headers)).demands = _ :=
    demands_array (fun bytes => Quiet.deserializeBlockHeader bytes sha256) count
  have checked : (ensure (m := Survey) (shorthash sha256 (PayloadToSend.headers headers).serialize =
      shorthash sha256 (PayloadToSend.headers headers).serialize)).result = some () := by
    rw [ensure, if_pos rfl]
    rfl
  have arm : demands sha256 (PayloadToSend.headers headers).serialize (PayloadToSend.headers headers).command =
      (deserializeInto (m := Survey) sliceLayout (deserializeArray headerLayout (deserializeBlockHeader sha256))
        (serializeArray serializeBlockHeader headers) .headers).demands := demands_bind (.ensure _) checked
  rw [arm, demands_into, array]
  rfl

/-- A page of an answer to `getheaders` fits in the arena that is picked for it. -/
theorem headers_fitsIn {headers : List BlockHeaderOwned} (few : headers.length ≤ 2000)
    (picked : arena.capacity = arenaSize (PayloadToSend.headers headers).serialize.length) :
    (PayloadToSend.headers headers).serialize.length ≤ maxPacketSize ∧
      (PayloadToSend.headers headers).FitsIn sha256 arena := by
  obtain ⟨least, most⟩ := length_headers_bounds headers
  have padding : ∀ consumed, arena.padding 8 consumed < 8 := fun _ => Nat.mod_lt _ (by decide)
  refine ⟨?_, picked, ?_⟩
  · rw [maxPacketSize]
    omega
  · rw [demands_headers headers (by omega)]
    generalize (PayloadToSend.headers headers).serialize.length = length at *
    have before := padding length
    have between := padding (length + arena.padding 8 length + 16)
    rw [arenaSize, smallArenaSize, maxPacketSize] at picked
    refine ⟨?_, ?_, trivial⟩
    · split at picked <;> omega
    · split at picked <;> omega

end Bitlens

import Bitlens.Connection

namespace Bitlens
open Lib

/-! The packets that `handshake` has read before it ends. -/

/-- The `Version` packets among these. -/
def versions (packets : List Packet) : List Version :=
  packets.filterMap fun packet => match packet.payload with
    | some (.version v) => some v
    | _ => none

/-- The answers to the pings among these. -/
def pongs (packets : List Packet) : List PayloadToSend :=
  packets.filterMap fun packet => match packet.payload with
    | some (.ping nonce) => some (.pong nonce)
    | _ => none

/-- No packet is a `VerAck`, and the version is that of the only `Version` packet, if there is one. -/
structure Waits (packets : List Packet) (remoteVersion : Option Version) : Prop where
  unfinished : ∀ packet ∈ packets, packet.payload ≠ some .verAck
  greeted : versions packets = remoteVersion.toList

/-- What BIP 155 and BIP 130 let a peer of this version be told with the `VerAck`. -/
def announcements (v : Version) : List PayloadToSend :=
  (if 70016 ≤ v.version then [.sendAddrV2] else []) ++ [.verAck] ++ if 70012 ≤ v.version then [.sendHeaders] else []

/-- Neither a `Version`, a `VerAck` nor a `Ping`. -/
def Packet.Ignored (packet : Packet) : Prop :=
  ∀ p, packet.payload = some p → (∀ v, p ≠ .version v) ∧ p ≠ .verAck ∧ ∀ nonce, p ≠ .ping nonce

/-- The same packets are written, and the results are the same but for the number of packets read. -/
def EndsAlike (x y : List PayloadToSend × Outcome (Except Error (Version × Nat × List (Except Error Packet)))) : Prop :=
  x.1 = y.1 ∧ ∀ v rest, (∃ n, x.2 = .ok (.ok (v, n, rest))) ↔ ∃ n, y.2 = .ok (.ok (v, n, rest))

/-- What the handshake does with the packets that the peer sends. -/
structure Handshakes (reads : List (Except Error Packet)) : Prop where
  finishes : ∀ v n rest, (handshake undisturbed reads).2 = .ok (.ok (v, n, rest)) ↔
    ∃ packets verAck, reads = packets.map .ok ++ .ok verAck :: rest ∧ Waits packets (some v) ∧
      verAck.payload = some .verAck ∧ n = packets.length + 1
  returns : (handshake undisturbed reads).2 ≠ .fault
  announces : ∀ packets verAck rest v, reads = packets.map .ok ++ .ok verAck :: rest → Waits packets (some v) →
    verAck.payload = some .verAck → (handshake undisturbed reads).1 = pongs packets ++ announcements v
  refuses : ∀ packets packet rest remoteVersion, reads = packets.map .ok ++ .ok packet :: rest →
    Waits packets remoteVersion →
    (packet.payload = some .verAck ∧ remoteVersion = none ∨
      (∃ v, packet.payload = some (.version v)) ∧ remoteVersion ≠ none) →
    (handshake undisturbed reads).1 = pongs packets ∧ ∃ e, (handshake undisturbed reads).2 = .ok (.error e)
  waits : ∀ packets rest remoteVersion, reads = packets.map .ok ++ rest → Waits packets remoteVersion →
    (∀ packet, rest.head? ≠ some (.ok packet)) →
    (handshake undisturbed reads).1 = pongs packets ∧ ∃ e, (handshake undisturbed reads).2 = .ok (.error e)
  ignores : ∀ packets packet rest remoteVersion, reads = packets.map .ok ++ .ok packet :: rest →
    Waits packets remoteVersion → packet.Ignored →
    EndsAlike (handshake undisturbed reads) (handshake undisturbed (packets.map .ok ++ rest))

variable {packets : List Packet} {packet : Packet} {reads rest : List (Except Error Packet)} {v : Version}
  {remoteVersion : Option Version} {n : Nat} {sent : List PayloadToSend}

theorem waits_nil : Waits [] none :=
  ⟨fun _ absent => (List.not_mem_nil absent).elim, rfl⟩

theorem versions_concat (packets : List Packet) (packet : Packet) :
    versions (packets ++ [packet]) = versions packets ++ versions [packet] :=
  List.filterMap_append

theorem pongs_concat (packets : List Packet) (packet : Packet) :
    pongs (packets ++ [packet]) = pongs packets ++ pongs [packet] :=
  List.filterMap_append

theorem versions_of_version (payload : packet.payload = some (.version v)) : versions [packet] = [v] := by
  simp [versions, payload]

theorem versions_of_other (other : ∀ v, packet.payload ≠ some (.version v)) : versions [packet] = [] := by
  unfold versions
  rw [List.filterMap_cons_none, List.filterMap_nil]
  split
  · next v payload => exact absurd payload (other v)
  · rfl

theorem Waits.version (waits : Waits packets none) (payload : packet.payload = some (.version v)) :
    Waits (packets ++ [packet]) (some v) where
  unfinished := List.forall_mem_append.mpr ⟨waits.unfinished, by simp [payload]⟩
  greeted := by
    rw [versions_concat, waits.greeted, versions_of_version payload]
    rfl

theorem Waits.other (waits : Waits packets remoteVersion) (other : ∀ v, packet.payload ≠ some (.version v))
    (unfinished : packet.payload ≠ some .verAck) : Waits (packets ++ [packet]) remoteVersion where
  unfinished := List.forall_mem_append.mpr ⟨waits.unfinished, by simpa using unfinished⟩
  greeted := by rw [versions_concat, waits.greeted, versions_of_other other, List.append_nil]

/-- The last packet is the first `Version`, or neither a `Version` nor a `VerAck`. -/
theorem Waits.concat (waits : Waits (packets ++ [packet]) remoteVersion) :
    (∃ v, packet.payload = some (.version v) ∧ remoteVersion = some v ∧ Waits packets none) ∨
      (∀ v, packet.payload ≠ some (.version v)) ∧ packet.payload ≠ some .verAck ∧ Waits packets remoteVersion := by
  have unfinished := List.forall_mem_append.mp waits.unfinished
  have greeted := waits.greeted
  rw [versions_concat] at greeted
  by_cases version : ∃ v, packet.payload = some (.version v)
  · obtain ⟨v, payload⟩ := version
    rw [versions_of_version payload] at greeted
    cases remoteVersion with
    | none => simp at greeted
    | some first =>
      have split : versions packets ++ [v] = [] ++ [first] := greeted
      obtain ⟨before, same⟩ := List.append_inj' split rfl
      exact Or.inl ⟨v, payload, by simpa using same.symm, unfinished.1, before⟩
  · rw [not_exists] at version
    rw [versions_of_other version, List.append_nil] at greeted
    exact Or.inr ⟨version, unfinished.2 packet (List.mem_singleton_self _), unfinished.1, greeted⟩

namespace Packet.Ignored

theorem other (ignored : packet.Ignored) (v : Version) : packet.payload ≠ some (.version v) :=
  fun payload => (ignored _ payload).1 v rfl

theorem unfinished (ignored : packet.Ignored) : packet.payload ≠ some .verAck :=
  fun payload => (ignored _ payload).2.1 rfl

theorem no_pong (ignored : packet.Ignored) : pongs [packet] = [] := by
  unfold pongs
  rw [List.filterMap_cons_none, List.filterMap_nil]
  split
  · next nonce payload => exact absurd rfl ((ignored _ payload).2.2 nonce)
  · rfl

end Packet.Ignored

/-! The rounds of the loop. -/

def handled (packet : Packet) (remoteVersion : Option Version) :
    Except Error (Option (List PayloadToSend) × Bool × Option Version) :=
  match packet.payload with
  | some p => handlePacketDuringHandshaking p false remoteVersion
  | none => .ok (none, false, remoteVersion)

/-- What `handle_packet_during_handshaking` answers to the `VerAck` of a peer of this version. -/
def verAckAnswers (v : Version) : List PayloadToSend :=
  (if v.version > 70016 then [.sendAddrV2] else []) ++ [.verAck] ++ if v.version > 70012 then [.sendHeaders] else []

theorem handshakeLoop_of_error {e : Error} (result : handled packet remoteVersion = .error e) :
    handshakeLoop undisturbed (.ok packet :: reads) n remoteVersion sent = (sent, .ok (.error e)) := by
  unfold handled at result
  cases payload : packet.payload with
  | none =>
    rw [payload] at result
    cases result
  | some p =>
    rw [payload] at result
    dsimp only at result
    simp only [handshakeLoop, undisturbed, payload, result]

theorem handshakeLoop_of_ok {responses : Option (List PayloadToSend)} {finished : Bool} {w : Option Version}
    (result : handled packet remoteVersion = .ok (responses, finished, w)) :
    handshakeLoop undisturbed (.ok packet :: reads) n remoteVersion sent =
      if finished then (sent ++ responses.getD [], (Outcome.unwrap w).bind fun v => .ok (.ok (v, n + 1, reads)))
      else handshakeLoop undisturbed reads (n + 1) w (sent ++ responses.getD []) := by
  have answered : (responses.bind fun _ => (none : Option Error)) = none := by cases responses <;> rfl
  unfold handled at result
  cases payload : packet.payload with
  | none =>
    rw [payload] at result
    cases result
    simp only [handshakeLoop, undisturbed, payload, answered]
  | some p =>
    rw [payload] at result
    dsimp only at result
    simp only [handshakeLoop, undisturbed, payload, result, answered]

theorem handshakeLoop_version (payload : packet.payload = some (.version v)) :
    handshakeLoop undisturbed (.ok packet :: reads) n none sent =
      handshakeLoop undisturbed reads (n + 1) (some v) sent := by
  have result : handled packet none = .ok (none, false, some v) := by rw [handled, payload]; rfl
  rw [handshakeLoop_of_ok result, Option.getD_none, List.append_nil]
  rfl

theorem handshakeLoop_version_again (payload : packet.payload = some (.version v)) (again : remoteVersion ≠ none) :
    handshakeLoop undisturbed (.ok packet :: reads) n remoteVersion sent =
      (sent, .ok (.error (.message "sent the version packet more than once"))) := by
  obtain ⟨first, rfl⟩ := Option.ne_none_iff_exists'.mp again
  exact handshakeLoop_of_error (by rw [handled, payload]; rfl)

theorem handshakeLoop_verAck_early (payload : packet.payload = some .verAck) :
    handshakeLoop undisturbed (.ok packet :: reads) n none sent =
      (sent, .ok (.error (.message "sent verack before version"))) :=
  handshakeLoop_of_error (by rw [handled, payload]; rfl)

theorem handshakeLoop_verAck (payload : packet.payload = some .verAck) :
    handshakeLoop undisturbed (.ok packet :: reads) n (some v) sent =
      (sent ++ verAckAnswers v, .ok (.ok (v, n + 1, reads))) := by
  have result : handled packet (some v) = .ok (some (verAckAnswers v), true, some v) := by rw [handled, payload]; rfl
  rw [handshakeLoop_of_ok result]
  rfl

theorem handshakeLoop_other (other : ∀ v, packet.payload ≠ some (.version v))
    (unfinished : packet.payload ≠ some .verAck) :
    handshakeLoop undisturbed (.ok packet :: reads) n remoteVersion sent =
      handshakeLoop undisturbed reads (n + 1) remoteVersion (sent ++ pongs [packet]) := by
  obtain ⟨responses, result, answers⟩ : ∃ responses,
      handled packet remoteVersion = .ok (responses, false, remoteVersion) ∧ responses.getD [] = pongs [packet] := by
    unfold handled pongs
    cases payload : packet.payload with
    | none => exact ⟨_, rfl, by simp [payload]⟩
    | some p =>
      cases p with
      | version v => exact absurd payload (other v)
      | verAck => exact absurd payload unfinished
      | _ => exact ⟨_, rfl, by simp [payload]⟩
  rw [handshakeLoop_of_ok result, answers]
  rfl

/-- Without another packet the loop ends with an error. -/
theorem handshakeLoop_stop (stop : ∀ packet, reads.head? ≠ some (.ok packet)) :
    ∃ e, handshakeLoop undisturbed reads n remoteVersion sent = (sent, .ok (.error e)) := by
  cases reads with
  | nil => exact ⟨_, rfl⟩
  | cons read reads =>
    cases read with
    | error e => exact ⟨e, rfl⟩
    | ok packet => exact absurd rfl (stop packet)

/-- The number of packets read only shows in the result. -/
theorem handshakeLoop_endsAlike (n m : Nat) (remoteVersion : Option Version) (sent : List PayloadToSend) :
    EndsAlike (handshakeLoop undisturbed reads n remoteVersion sent)
      (handshakeLoop undisturbed reads m remoteVersion sent) := by
  induction reads generalizing n m remoteVersion sent with
  | nil => exact ⟨rfl, fun _ _ => Iff.rfl⟩
  | cons read reads ih =>
    cases read with
    | error e => exact ⟨rfl, fun _ _ => Iff.rfl⟩
    | ok packet =>
      cases result : handled packet remoteVersion with
      | error e =>
        rw [handshakeLoop_of_error result, handshakeLoop_of_error result]
        exact ⟨rfl, fun _ _ => Iff.rfl⟩
      | ok handling =>
        obtain ⟨responses, finished, w⟩ := handling
        rw [handshakeLoop_of_ok result, handshakeLoop_of_ok result]
        cases finished with
        | false => exact ih (n + 1) (m + 1) w _
        | true =>
          refine ⟨rfl, fun v rest => ?_⟩
          cases w with
          | none => exact ⟨nofun, nofun⟩
          | some first =>
            constructor
            · rintro ⟨k, same⟩
              cases same
              exact ⟨m + 1, rfl⟩
            · rintro ⟨k, same⟩
              cases same
              exact ⟨n + 1, rfl⟩

/-! The run up to some point. -/

/-- While the handshake waits, the packets that it has read tell its state. -/
theorem handshakeLoop_waits (waits : Waits packets remoteVersion) :
    handshakeLoop undisturbed (packets.map .ok ++ rest) 0 none [] =
      handshakeLoop undisturbed rest packets.length remoteVersion (pongs packets) := by
  induction packets using List.reverseRecOn generalizing rest remoteVersion with
  | nil =>
    have none : remoteVersion = none := by simpa [versions] using waits.greeted.symm
    rw [none]
    rfl
  | append_singleton packets packet ih =>
    rw [List.map_append, List.append_assoc, pongs_concat, List.length_append]
    rcases waits.concat with ⟨v, payload, rfl, before⟩ | ⟨other, unfinished, before⟩
    · have silent : pongs [packet] = [] := by simp [pongs, payload]
      rw [ih before, silent, List.append_nil]
      exact handshakeLoop_version payload
    · rw [ih before]
      exact handshakeLoop_other other unfinished

/-- Where the handshake stops waiting. -/
def Stops (remoteVersion : Option Version) (rest : List (Except Error Packet)) : Prop :=
  (∀ packet, rest.head? ≠ some (.ok packet)) ∨
    ∃ packet others, rest = .ok packet :: others ∧
      (packet.payload = some .verAck ∨ (∃ v, packet.payload = some (.version v)) ∧ remoteVersion ≠ none)

theorem Waits.exists_stop (waits : Waits packets remoteVersion) (rest : List (Except Error Packet)) :
    ∃ packets' remoteVersion' rest', packets.map .ok ++ rest = packets'.map .ok ++ rest' ∧
      Waits packets' remoteVersion' ∧ Stops remoteVersion' rest' := by
  induction rest generalizing packets remoteVersion with
  | nil => exact ⟨packets, remoteVersion, [], rfl, waits, Or.inl fun _ => nofun⟩
  | cons read rest ih =>
    cases read with
    | error e => exact ⟨packets, remoteVersion, .error e :: rest, rfl, waits, Or.inl fun _ => by simp⟩
    | ok packet =>
      have moved : packets.map .ok ++ .ok packet :: rest = (packets ++ [packet]).map Except.ok ++ rest := by simp
      by_cases finished : packet.payload = some .verAck
      · exact ⟨packets, remoteVersion, .ok packet :: rest, rfl, waits, Or.inr ⟨packet, rest, rfl, Or.inl finished⟩⟩
      by_cases version : ∃ v, packet.payload = some (.version v)
      · by_cases again : remoteVersion = none
        · obtain ⟨v, payload⟩ := version
          rw [moved]
          exact ih (Waits.version (again ▸ waits) payload)
        · exact ⟨packets, remoteVersion, .ok packet :: rest, rfl, waits,
            Or.inr ⟨packet, rest, rfl, Or.inr ⟨version, again⟩⟩⟩
      · rw [moved]
        exact ih (waits.other (not_exists.mp version) finished)

/-- The two tests of a version differ at the bound alone. -/
theorem gt_iff_le_of_ne {version bound : UInt32} (other : version ≠ bound) : version > bound ↔ bound ≤ version := by
  rw [← UInt32.toNat_inj.ne] at other
  rw [gt_iff_lt, UInt32.lt_iff_toNat_lt, UInt32.le_iff_toNat_le]
  exact ⟨le_of_lt, fun least => lt_of_le_of_ne least (Ne.symm other)⟩

theorem verAckAnswers_eq_iff : verAckAnswers v = announcements v ↔ v.version ≠ 70016 ∧ v.version ≠ 70012 := by
  constructor
  · intro same
    have length := congrArg List.length same
    refine ⟨fun addrV2 => ?_, fun headers => ?_⟩
    · rw [verAckAnswers, announcements, addrV2] at length
      exact absurd length (by decide)
    · rw [verAckAnswers, announcements, headers] at length
      exact absurd length (by decide)
  · rintro ⟨notAddrV2, notHeaders⟩
    simp only [verAckAnswers, announcements, gt_iff_le_of_ne notAddrV2, gt_iff_le_of_ne notHeaders]

/-- The handshake ends at the `VerAck` behind the one `Version`, or with an error. -/
theorem handshake_cases (reads : List (Except Error Packet)) :
    (∃ packets verAck rest v, reads = packets.map .ok ++ .ok verAck :: rest ∧ Waits packets (some v) ∧
      verAck.payload = some .verAck ∧ (handshake undisturbed reads).2 = .ok (.ok (v, packets.length + 1, rest))) ∨
      ∃ e, (handshake undisturbed reads).2 = .ok (.error e) := by
  obtain ⟨packets, remoteVersion, rest, split, waits, stops⟩ := waits_nil.exists_stop reads
  rw [List.map_nil, List.nil_append] at split
  have run : handshake undisturbed reads =
      handshakeLoop undisturbed rest packets.length remoteVersion (pongs packets) := by
    rw [handshake, split]
    exact handshakeLoop_waits waits
  rcases stops with none | ⟨packet, others, rfl, payload | ⟨⟨v, payload⟩, again⟩⟩
  · obtain ⟨e, stopped⟩ := handshakeLoop_stop none
    exact Or.inr ⟨e, by rw [run, stopped]⟩
  · cases remoteVersion with
    | none => exact Or.inr ⟨_, by rw [run, handshakeLoop_verAck_early payload]⟩
    | some v =>
      refine Or.inl ⟨packets, packet, others, v, split, waits, payload, ?_⟩
      rw [run, handshakeLoop_verAck payload]
  · exact Or.inr ⟨_, by rw [run, handshakeLoop_version_again payload again]⟩

/-- The handshake does as it should, on any packets, unless it ends with the `VerAck` of a peer of
one of the two versions that BIP 155 and BIP 130 begin with. -/
theorem handshakes_iff (reads : List (Except Error Packet)) :
    Handshakes reads ↔ ∀ packets verAck rest v, reads = packets.map .ok ++ .ok verAck :: rest →
      Waits packets (some v) → verAck.payload = some .verAck → v.version ≠ 70016 ∧ v.version ≠ 70012 := by
  have finished : ∀ packets verAck rest v, Waits packets (some v) → verAck.payload = some .verAck →
      handshake undisturbed (packets.map .ok ++ .ok verAck :: rest) =
        (pongs packets ++ verAckAnswers v, .ok (.ok (v, packets.length + 1, rest))) := by
    intro packets verAck rest v waits payload
    rw [handshake, handshakeLoop_waits waits, handshakeLoop_verAck payload]
  constructor
  · intro handshakes packets verAck rest v split waits payload
    have sent := handshakes.announces packets verAck rest v split waits payload
    rw [split, finished packets verAck rest v waits payload] at sent
    exact verAckAnswers_eq_iff.mp (List.append_cancel_left sent)
  · intro others
    refine ⟨?_, ?_, ?_, ?_, ?_, ?_⟩
    · intro v n rest
      constructor
      · intro result
        rcases handshake_cases reads with ⟨packets, verAck, rest', v', split, waits, payload, ended⟩ | ⟨e, ended⟩
        · cases ended.symm.trans result
          exact ⟨packets, verAck, split, waits, payload, rfl⟩
        · cases ended.symm.trans result
      · rintro ⟨packets, verAck, rfl, waits, payload, rfl⟩
        rw [finished packets verAck rest v waits payload]
    · intro fault
      rcases handshake_cases reads with ⟨_, _, _, _, _, _, _, ended⟩ | ⟨_, ended⟩
      · cases ended.symm.trans fault
      · cases ended.symm.trans fault
    · intro packets verAck rest v split waits payload
      rw [split, finished packets verAck rest v waits payload,
        verAckAnswers_eq_iff.mpr (others packets verAck rest v split waits payload)]
    · rintro packets packet rest remoteVersion rfl waits (⟨payload, rfl⟩ | ⟨⟨v, payload⟩, again⟩)
      · rw [handshake, handshakeLoop_waits waits, handshakeLoop_verAck_early payload]
        exact ⟨rfl, _, rfl⟩
      · rw [handshake, handshakeLoop_waits waits, handshakeLoop_version_again payload again]
        exact ⟨rfl, _, rfl⟩
    · rintro packets rest remoteVersion rfl waits stop
      obtain ⟨e, stopped⟩ := @handshakeLoop_stop rest remoteVersion packets.length (pongs packets) stop
      rw [handshake, handshakeLoop_waits waits, stopped]
      exact ⟨rfl, e, rfl⟩
    · rintro packets packet rest remoteVersion rfl waits ignored
      have silent : pongs [packet] = [] := ignored.no_pong
      rw [handshake, handshake, handshakeLoop_waits waits, handshakeLoop_waits waits,
        handshakeLoop_other ignored.other ignored.unfinished, silent, List.append_nil]
      exact handshakeLoop_endsAlike _ _ remoteVersion _

/-- The `Version` packet that `handshake` sends itself. -/
def ownVersion (timestamp nonce : UInt64) (startHeight : UInt32) : Version where
  services := 9
  timestamp := timestamp
  nonce := nonce
  userAgent := [115, 101, 109, 105, 107, 101, 107]
  version := 70016
  addrrecv := ⟨0, ByteArr.fill 16 0, 0⟩
  addrfrom := ⟨0, ByteArr.fill 16 0, 0⟩
  startHeight := startHeight
  announceRelayedTransactions := false

/-- A packet with this payload. -/
def packetOf (name : ByteArr 12) (bytes : Bytes) (payload : ReceivedPayload) : Packet :=
  ⟨⟨0xD9B4BEF9, name, UInt32.ofNat bytes.length, 0⟩, bytes, some payload⟩

/-- The packets of a peer that runs the same program. -/
def ownReads : List (Except Error Packet) :=
  [.ok (packetOf (PayloadToSend.version (ownVersion 1700000000 1 800000)).command
    (serializeVersion (ownVersion 1700000000 1 800000)) (.version (ownVersion 1700000000 1 800000))),
    .ok (packetOf PayloadToSend.verAck.command [] .verAck)]

/-- A peer of the version that the program has itself is not sent `SendAddrV2`. -/
theorem handshakes_fails : ¬ Handshakes ownReads := by
  intro handshakes
  have sent := handshakes.announces [_] _ [] _ rfl (waits_nil.version rfl) rfl
  have answers : (handshake undisturbed ownReads).1 = [.verAck, .sendHeaders] := rfl
  rw [answers] at sent
  exact absurd (congrArg List.length sent) (by decide)

end Bitlens

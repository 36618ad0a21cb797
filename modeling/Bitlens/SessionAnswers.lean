import Bitlens.PeerSession

namespace Bitlens
open Lib

def PayloadToSend.isPong : PayloadToSend → Bool
  | pong _ => true
  | _ => false

/-- The packets among some effects. -/
def writes (effects : List SessionEffect) : List PayloadToSend :=
  effects.filterMap fun
    | .writes packet => some packet
    | _ => none

@[simp] theorem writes_append (effects more : List SessionEffect) :
    writes (effects ++ more) = writes effects ++ writes more :=
  List.filterMap_append

@[simp] theorem writes_map (packets : List PayloadToSend) : writes (packets.map .writes) = packets := by
  induction packets with
  | nil => rfl
  | cons packet packets ih => simp [writes]

@[simp] theorem writes_watches (items : List (BlockHeaderOwned ⊕ Block)) : writes (items.map .watches) = [] := by
  induction items with
  | nil => rfl
  | cons item items ih => simp [writes]

/-- The lists among some effects that `peers_seen` is called with. -/
def seenPeers (effects : List SessionEffect) : List (List AddressPortNetwork) :=
  effects.filterMap fun
    | .seen apns _ => some apns
    | _ => none

@[simp] theorem seenPeers_append (effects more : List SessionEffect) :
    seenPeers (effects ++ more) = seenPeers effects ++ seenPeers more :=
  List.filterMap_append

@[simp] theorem seenPeers_writes (packets : List PayloadToSend) : seenPeers (packets.map .writes) = [] := by
  induction packets with
  | nil => rfl
  | cons packet packets ih => simp [seenPeers]

@[simp] theorem seenPeers_watches (items : List (BlockHeaderOwned ⊕ Block)) : seenPeers (items.map .watches) = [] := by
  induction items with
  | nil => rfl
  | cons item items ih => simp [seenPeers]

/-- The peers that some packets tell of, packet by packet. -/
def gossip (packets : List Packet) : List (List AddressPortNetwork) :=
  packets.filterMap fun packet => match packet.payload with
    | some (.addr addys) => some (addrPeers addys)
    | some (.addrV2 addys) => some (addrV2Peers addys)
    | _ => none

/-- Why a packet is written, when these branches were taken and these packets were received. -/
inductive Reason (p : Profile) (events : List SessionEvent) (packets : List Packet) : PayloadToSend → Prop
  | greets : Reason p events packets .getAddr
  | asks {chain hash} : .asks chain ∈ events → chain.getTopSyncedHeaderHash = .ok hash →
      Reason p events packets (askFrom [hash.getD emptyHash])
  | announces {hash} : .announces hash ∈ events → Reason p events packets (.inv [⟨.block, hash⟩])
  | pings {nonce} : .pings nonce ∈ events → Reason p events packets (.ping nonce)
  | works {job flags} : .works job flags ∈ events → flags.shouldProcessBlocks = true →
      Reason p events packets (.getData [⟨.witnessBlock, job⟩])
  | answers {packet nonce} : packet ∈ packets → packet.payload = some (.ping nonce) →
      Reason p events packets (.pong nonce)
  | fetches {packet inner} : packet ∈ packets → packet.payload = some (.inv inner) →
      Reason p events packets (.getData (announcedBlocks inner))
  | responds {packet v headers chain flags time} : packet ∈ packets → packet.payload = some (.getHeaders v) →
      .receives chain flags time ∈ events → flags.shouldProcessHeaders = true →
      chain.respondToGetheaders p v.blockLocator v.hashStop = .ok (some headers) →
      Reason p events packets (.headers headers)

variable {p : Profile} {events : List SessionEvent} {packets : List Packet} {m : PayloadToSend}

theorem Reason.mono {events' : List SessionEvent} {packets' : List Packet} (taken : events ⊆ events')
    (received : packets ⊆ packets') (reason : Reason p events packets m) : Reason p events' packets' m := by
  cases reason with
  | greets => exact .greets
  | asks member top => exact .asks (taken member) top
  | announces member => exact .announces (taken member)
  | pings member => exact .pings (taken member)
  | works member on => exact .works (taken member) on
  | answers member payload => exact .answers (received member) payload
  | fetches member payload => exact .fetches (received member) payload
  | responds member payload during on found => exact .responds (received member) payload (taken during) on found

theorem pongs_of_other {packet : Packet} (other : ∀ nonce, packet.payload ≠ some (.ping nonce)) :
    pongs [packet] = [] := by
  unfold pongs
  rw [List.filterMap_cons_none, List.filterMap_nil]
  split
  · next nonce pinged => exact absurd pinged (other nonce)
  · rfl

theorem gossip_of_other {packet : Packet} (noAddr : ∀ addys, packet.payload ≠ some (.addr addys))
    (noAddrV2 : ∀ addys, packet.payload ≠ some (.addrV2 addys)) : gossip [packet] = [] := by
  unfold gossip
  rw [List.filterMap_cons_none, List.filterMap_nil]
  split
  · next addys told => exact absurd told (noAddr addys)
  · next addys told => exact absurd told (noAddrV2 addys)
  · rfl

/-- What `handle_payload` does for a packet that is no request for data. -/
theorem handlePayload_spec {chain : Chain} {flags : SyncFlags} {time : Nat} {packet : Packet}
    {requests requests' : List (Hash × Bool)} {effects : List SessionEffect} {responses : Option (List PayloadToSend)}
    (noRequest : ∀ inner, packet.payload ≠ some (.getData inner))
    (result : handlePayload p chain flags time packet.payload requests = .ok (requests', effects, responses)) :
    requests' = requests ∧ writes effects = [] ∧ seenPeers effects = gossip [packet] ∧
      (responses.getD []).filter PayloadToSend.isPong = pongs [packet] ∧
      ∀ m ∈ responses.getD [], Reason p [.receives chain flags time] [packet] m := by
  have here : packet ∈ [packet] := List.mem_singleton_self packet
  unfold handlePayload at result
  split at result
  · next payload =>
    cases result
    simp [pongs, gossip, payload, writes, seenPeers]
  · next received payload =>
    split at result
    · cases result
      simpa [pongs, gossip, payload, writes, seenPeers, PayloadToSend.isPong] using .answers here payload
    · cases result
      simp [pongs, gossip, payload, writes, seenPeers]
    · cases result
      simp [pongs, gossip, payload, writes, seenPeers]
    · cases result
      simp [pongs, gossip, payload]
    · cases result
      simp [pongs, gossip, payload]
    · cases result
      split
      · simpa [pongs, gossip, payload, writes, seenPeers, PayloadToSend.isPong] using .fetches here payload
      · simp [pongs, gossip, payload, writes, seenPeers]
    · next v =>
      split at result
      · next on =>
        obtain ⟨headers, found, result⟩ := Outcome.bind_eq_ok.mp result
        cases result
        cases headers with
        | none => simp [pongs, gossip, payload, writes, seenPeers]
        | some headers =>
          have reason : Reason p [.receives chain flags time] [packet] (.headers headers) :=
            .responds here payload (List.mem_singleton_self _) on found
          simpa [pongs, gossip, payload, writes, seenPeers, PayloadToSend.isPong] using reason
      · cases result
        simp [pongs, gossip, payload, writes, seenPeers]
    · next inner => exact absurd payload (noRequest inner)
    · next noPing noAddr noAddrV2 _ _ _ _ _ =>
      cases result
      have other : ∀ {payload'}, packet.payload = some payload' → received = payload' :=
        fun same => Option.some.inj (payload.symm.trans same)
      have noPong := pongs_of_other fun nonce pinged => noPing nonce (other pinged)
      have silent := gossip_of_other (fun addys told => noAddr addys (other told))
        fun addys told => noAddrV2 addys (other told)
      simp [noPong, silent, writes, seenPeers]

theorem pongs_append (packets more : List Packet) : pongs (packets ++ more) = pongs packets ++ pongs more :=
  List.filterMap_append

theorem gossip_append (packets more : List Packet) : gossip (packets ++ more) = gossip packets ++ gossip more :=
  List.filterMap_append

theorem eq_mod_of_add {w a b c : Nat} (result : p.add w a b = .ok c) : c = (a + b) % 2 ^ w := by
  unfold Profile.add at result
  split at result
  · next small =>
    cases result
    exact (Nat.mod_eq_of_lt small).symm
  · cases p <;> cases result
    rfl

/-! What the reader task sends. -/

theorem noRequest_of_loop {sha256 : Bytes → Hash} {getArena : Nat → Nat → Arena} {fuel n : Nat} {stream : Bytes}
    {packet : Packet} (sent : .ok packet ∈ readAndSendLoop sha256 getArena fuel n stream) :
    ∀ inner, packet.payload ≠ some (.getData inner) := by
  induction fuel generalizing n stream with
  | zero => cases sent
  | succ fuel ih =>
    unfold readAndSendLoop at sent
    split at sent
    · next first rest read =>
      rcases List.mem_cons.mp sent with same | later
      · cases same
        intro inner payload
        obtain ⟨_, _, impossible⟩ := readPacket_checked read payload
        exact impossible
      · exact ih later
    · simp at sent
    · cases sent

theorem handshakeLoop_suffix {w : Interruptions} {reads rest : List (Except Error Packet)} {n n' : Nat}
    {remoteVersion : Option Version} {sent : List PayloadToSend} {v : Version}
    (result : (handshakeLoop w reads n remoteVersion sent).2 = .ok (.ok (v, n', rest))) : rest <:+ reads := by
  induction reads generalizing n remoteVersion sent with
  | nil => cases result
  | cons read reads ih =>
    unfold handshakeLoop at result
    split at result
    · cases result
    · cases result
    · dsimp only at result
      split at result
      · cases result
      · split at result
        · cases result
        · split at result
          · obtain ⟨_, _, result⟩ := Outcome.bind_eq_ok.mp result
            cases result
            exact List.suffix_cons _ _
          · exact (ih result).trans (List.suffix_cons _ _)

namespace PeerSession

variable {s t : PeerSession} {event : SessionEvent} {reads : List (Except Error Packet)}

def written (s : PeerSession) : List PayloadToSend := writes s.effects

/-- What holds when these packets have been received. -/
structure Answers (p : Profile) (reads : List (Except Error Packet)) (events : List SessionEvent)
    (packets : List Packet) (s : PeerSession) : Prop where
  received : reads = packets.map .ok ++ s.reads
  served : s.blockRequests = []
  reasons : ∀ m ∈ s.written, Reason p events packets m
  pongs : s.written.filter PayloadToSend.isPong = Bitlens.pongs packets
  counted : s.point ≠ .panicked → s.packetsReceivedTotal = packets.length % 2 ^ 32
  told : seenPeers s.effects = gossip packets

/-- A step that does something, and receives some packets. -/
theorem Answers.extend (answers : Answers p reads events packets s) {effects : List SessionEffect} {new : List Packet}
    (taken : s.reads = new.map .ok ++ t.reads) (served : t.blockRequests = [])
    (total : t.point ≠ .panicked → s.point ≠ .panicked ∧ (s.packetsReceivedTotal = packets.length % 2 ^ 32 →
      t.packetsReceivedTotal = (packets ++ new).length % 2 ^ 32))
    (more : t.effects = s.effects ++ effects) (reasons : ∀ m ∈ writes effects, Reason p [event] new m)
    (pongs : (writes effects).filter PayloadToSend.isPong = Bitlens.pongs new) (told : seenPeers effects = gossip new) :
    Answers p reads (events ++ [event]) (packets ++ new) t := by
  have whole : t.written = s.written ++ writes effects := by rw [written, more, writes_append, written]
  refine ⟨?_, served, ?_, ?_, fun calm => (total calm).2 (answers.counted (total calm).1), ?_⟩
  · simpa [taken] using answers.received
  · rw [whole]
    refine List.forall_mem_append.mpr ⟨fun m member => ?_, fun m member => ?_⟩
    · exact (answers.reasons m member).mono (List.subset_append_left _ _) (List.subset_append_left _ _)
    · exact (reasons m member).mono (List.subset_append_right _ _) (List.subset_append_right _ _)
  · rw [whole, List.filter_append, answers.pongs, pongs, pongs_append]
  · rw [more, seenPeers_append, answers.told, told, gossip_append]

/-- A step that receives no packet, and writes no pong. -/
theorem Answers.stay (answers : Answers p reads events packets s) {effects : List SessionEffect}
    (same : t.reads = s.reads) (served : t.blockRequests = []) (total : t.packetsReceivedTotal = s.packetsReceivedTotal)
    (alive : t.point ≠ .panicked → s.point ≠ .panicked) (more : t.effects = s.effects ++ effects)
    (reasons : ∀ m ∈ writes effects, Reason p [event] [] m)
    (silent : (writes effects).filter PayloadToSend.isPong = []) (deaf : seenPeers effects = []) :
    ∃ new, Answers p reads (events ++ [event]) (packets ++ new) t := by
  refine ⟨[], answers.extend (by simp [same]) served (fun calm => ⟨alive calm, ?_⟩) more reasons silent deaf⟩
  simp [total]

/-- A packet is received, handled and counted. -/
theorem Answers.receive (answers : Answers p reads events packets s) {chain : Chain} {flags : SyncFlags} {time : Nat}
    {packet : Packet} {rest : List (Except Error Packet)} {requests : List (Hash × Bool)} {effects : List SessionEffect}
    {responses : Option (List PayloadToSend)} (waiting : s.reads = .ok packet :: rest)
    (noRequest : ∀ inner, packet.payload ≠ some (.getData inner))
    (result : handlePayload p chain flags time packet.payload s.blockRequests = .ok (requests, effects, responses))
    (point : s.point ≠ .panicked) (more : List SessionEffect) (silent : writes more = []) (deaf : seenPeers more = [])
    (reads' : t.reads = rest) (requests' : t.blockRequests = requests)
    (effects' : t.effects = s.effects ++ (effects ++ (responses.getD []).map .writes ++ more))
    (counted : t.point ≠ .panicked → p.add 32 s.packetsReceivedTotal 1 = .ok t.packetsReceivedTotal) :
    Answers p reads (events ++ [.receives chain flags time]) (packets ++ [packet]) t := by
  obtain ⟨same, quiet, told, pongs, reasons⟩ := handlePayload_spec noRequest result
  have written : writes (effects ++ (responses.getD []).map .writes ++ more) = responses.getD [] := by
    simp [quiet, silent]
  refine answers.extend (by rw [waiting, reads']; rfl) ?_ (fun calm => ⟨point, fun before => ?_⟩) effects'
    (by rwa [written]) (by rwa [written]) ?_
  · rw [requests', same, answers.served]
  · have sum := eq_mod_of_add (counted calm)
    simp [sum, before]
  · simp [told, deaf]

/-- A packet whose handling panics, as only that of a `getheaders` can. -/
theorem Answers.panic (answers : Answers p reads events packets s) {packet : Packet} {rest : List (Except Error Packet)}
    (waiting : s.reads = .ok packet :: rest) (noPing : ∀ nonce, packet.payload ≠ some (.ping nonce))
    (noAddr : ∀ addys, packet.payload ≠ some (.addr addys)) (noAddrV2 : ∀ addys, packet.payload ≠ some (.addrV2 addys)) :
    Answers p reads (events ++ [event]) (packets ++ [packet]) { s with reads := rest, point := .panicked } :=
  answers.extend waiting answers.served (by simp) (List.append_nil _).symm (by simp [writes]) (pongs_of_other noPing).symm
    (gossip_of_other noAddr noAddrV2).symm

/-- The branch that waits for the next packet. -/
theorem Answers.wait (answers : Answers p reads events packets s) {chain : Chain} {flags : SyncFlags} {time : Nat}
    (noRequest : ∀ packet, .ok packet ∈ reads → ∀ inner, packet.payload ≠ some (.getData inner))
    (step : s.Step p (.receives chain flags time) t) :
    ∃ new, Answers p reads (events ++ [.receives chain flags time]) (packets ++ new) t := by
  unfold Step next at step
  dsimp only at step
  split at step
  · next point =>
    have calm : s.point ≠ .panicked := by simp [point]
    split at step
    · next packet rest waiting =>
      have quiet := noRequest packet (by simp [answers.received, waiting])
      refine ⟨[packet], ?_⟩
      split at step
      · next requests effects responses result =>
        split at step
        · next total counted =>
          cases step
          exact answers.receive waiting quiet result calm [.online] rfl rfl rfl rfl (List.append_assoc _ _ _)
            fun _ => counted
        · cases step
          exact answers.receive waiting quiet result calm [] rfl rfl rfl rfl (by simp [did]) fun alive =>
            absurd rfl alive
      · next panics =>
        cases step
        refine answers.panic waiting (fun nonce pinged => ?_) (fun addys told => ?_) fun addys told => ?_
        · exact panics _ _ _ (by rw [pinged]; rfl)
        · exact panics _ _ _ (by rw [told]; rfl)
        · exact panics _ _ _ (by rw [told]; rfl)
    · cases step
      exact answers.stay rfl answers.served rfl (by simp [point]) (List.append_nil _).symm (by simp [writes]) rfl rfl
  · cases step

/-- The step lemma. -/
theorem Answers.step (answers : Answers p reads events packets s)
    (noRequest : ∀ packet, .ok packet ∈ reads → ∀ inner, packet.payload ≠ some (.getData inner))
    (step : s.Step p event t) : ∃ new, Answers p reads (events ++ [event]) (packets ++ new) t := by
  unfold Step next at step
  cases event with
  | greets =>
    dsimp only at step
    split at step <;> cases step
    next point =>
      exact answers.stay rfl answers.served rfl (by simp [point]) rfl (by simp [writes, Reason.greets]) rfl rfl
  | asks chain =>
    dsimp only at step
    split at step
    · next point =>
      split at step
      · next hash top =>
        cases step
        refine answers.stay rfl answers.served rfl (by simp [point]) rfl ?_ rfl rfl
        simpa [writes] using Reason.asks (List.mem_singleton_self _) top
      · cases step
        exact answers.stay rfl answers.served rfl (by simp) (List.append_nil _).symm (by simp [writes]) rfl rfl
    · cases step
  | announces hash =>
    dsimp only at step
    split at step <;> cases step
    refine answers.stay rfl answers.served rfl id rfl ?_ rfl rfl
    simpa [writes] using .announces (List.mem_singleton_self _)
  | pings nonce =>
    dsimp only at step
    split at step <;> cases step
    refine answers.stay rfl answers.served rfl id rfl ?_ rfl rfl
    simpa [writes] using .pings (List.mem_singleton_self _)
  | serves getBlock =>
    dsimp only at step
    rw [answers.served] at step
    split at step <;> cases step
    exact answers.stay rfl answers.served rfl id (List.append_nil _).symm (by simp [writes]) rfl rfl
  | works job flags =>
    dsimp only at step
    split at step <;> cases step
    refine answers.stay rfl answers.served rfl id rfl ?_ ?_ ?_
    all_goals split
    · next on => simpa [writes] using .works (List.mem_singleton_self _) on
    all_goals simp [writes, seenPeers, PayloadToSend.isPong]
  | fails =>
    dsimp only at step
    split at step <;> cases step
    next alive =>
      have calm : s.point ≠ .panicked := fun panicked => alive (Or.inr panicked)
      exact answers.stay rfl answers.served rfl (fun _ => calm) (List.append_nil _).symm (by simp [writes]) rfl rfl
  | receives chain flags time => exact answers.wait noRequest step

/-- Whatever bytes a peer sends and however the branches of its session interleave: each packet that is written has its
reason, so that no block is ever served and nothing reported missing, each ping is answered once and in order, each
packet is counted, and the address manager is told what the received packets tell of, each list once and in order. -/
theorem session_answers {sha256 : Bytes → Hash} {getArena : Nat → Nat → Arena} {stream : Bytes} {w : Interruptions}
    {v : Version} {n : Nat}
    (handshaken : (handshake w (readAndSendMessages sha256 getArena stream)).2 = .ok (.ok (v, n, reads)))
    (run : Run (Step p) (start reads) events s) : ∃ packets : List Packet,
      reads = packets.map .ok ++ s.reads ∧ s.blockRequests = [] ∧ (∀ m ∈ s.written, Reason p events packets m) ∧
        s.written.filter PayloadToSend.isPong = Bitlens.pongs packets ∧
        (s.point ≠ .panicked → s.packetsReceivedTotal = packets.length % 2 ^ 32) ∧
        seenPeers s.effects = gossip packets := by
  have suffix := handshakeLoop_suffix handshaken
  have noRequest : ∀ packet, .ok packet ∈ reads → ∀ inner, packet.payload ≠ some (.getData inner) :=
    fun packet sent => noRequest_of_loop (suffix.subset sent)
  have kept : ∃ packets, Answers p reads events packets s := by
    refine run.history (P := fun events s => ∃ packets, Answers p reads events packets s) ⟨[], ?_⟩ ?_
    · exact ⟨rfl, rfl, by simp [start, written, writes], by simp [start, written, writes, Bitlens.pongs],
        fun _ => rfl, by simp [start, seenPeers, gossip]⟩
    · intro events s event t before step
      obtain ⟨packets, answers⟩ := before
      obtain ⟨new, extended⟩ := answers.step noRequest step
      exact ⟨_, extended⟩
  obtain ⟨packets, answers⟩ := kept
  exact ⟨packets, answers.received, answers.served, answers.reasons, answers.pongs, answers.counted, answers.told⟩

/-- An `addr` message with one address, written as an IPv6 one. -/
def addrMessage : Bytes :=
  let payload := [1] ++ leBytes 4 1700000000 ++ leBytes 8 9 ++ List.replicate 10 0 ++ [0xff, 0xff, 10, 0, 0, 1, 0x20, 0x8d]
  leBytes 4 activeMagic.toNat ++ [97, 100, 100, 114, 0, 0, 0, 0, 0, 0, 0, 0] ++ leBytes 4 payload.length ++
    (digestTwice Sha256.sha256 payload).1.take 4 ++ payload

/-- The packets of a peer that sends a ping and an address behind the handshake. -/
def helloReads : List (Except Error Packet) :=
  readAndSendMessages Sha256.sha256 (fun _ _ => smallArena)
    ([.version (ownVersion 1700000000 1 800000), .verAck, .ping 7].flatMap (writePacket Sha256.sha256) ++ addrMessage)

def helloSession : List SessionEvent :=
  [.greets, .asks Chain.default, .receives Chain.default ⟨false, false⟩ 1700000000,
    .receives Chain.default ⟨false, false⟩ 1700000001]

def greeted : PeerSession := after (next .dev) (start (helloReads.drop 2)) helloSession

set_option maxRecDepth 4000 in
theorem session_answers_ping :
    (greeted.written.filter PayloadToSend.isPong).length = 1 ∧
      seenPeers greeted.effects = [[⟨.ipv4, 8333, [10, 0, 0, 1]⟩]] ∧
      ∃ packets, helloReads.drop 2 = packets.map .ok ++ greeted.reads ∧
        greeted.written.filter PayloadToSend.isPong = Bitlens.pongs packets ∧
        seenPeers greeted.effects = gossip packets := by
  have handshaken : (handshake undisturbed helloReads).2 =
      .ok (.ok (ownVersion 1700000000 1 800000, 2, helloReads.drop 2)) := rfl
  have run : Run (Step .dev) (start (helloReads.drop 2)) helloSession greeted :=
    Run.of_after (fun _ _ _ taken => taken) (by decide +kernel)
  obtain ⟨packets, received, _, _, pongs, _, told⟩ := session_answers handshaken run
  exact ⟨by decide +kernel, by decide +kernel, packets, received, pongs, told⟩

end PeerSession

end Bitlens

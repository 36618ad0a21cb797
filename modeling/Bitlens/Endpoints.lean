import Bitlens.BannedPeers
import Bitlens.WireRoundTrip
import Bitlens.Lib.Distinct

namespace Bitlens
open Lib

/-! Where the peers come from that `peers_seen` is called with. -/

/-- The match of `handle_payload` on an address of 16 bytes. -/
def networkOf (address : Bytes) : NetworkId × Bytes :=
  match address with
  | [0, 0, 0, 0, 0, 0, 0, 0, 0, 0, 0xff, 0xff, a, b, c, d] => (.ipv4, [a, b, c, d])
  | other => (.ipv6, other)

/-- The loop of `handle_payload` over an `addr` message. -/
def addrPeers (addys : List NetAddr) : List AddressPortNetwork :=
  addys.map fun addy =>
    let (networkId, addyBytes) := networkOf addy.addr.1
    ⟨networkId, addy.port, addyBytes⟩

/-- The loop over an `addrv2` message, which skips what is no IP address. -/
def addrV2Peers (addys : List NetAddrV2) : List AddressPortNetwork :=
  addys.filterMap fun addy =>
    match addy.networkId, addy.address.length with
    | .ipv4, 4 => some ⟨.ipv4, addy.port, addy.address⟩
    | .ipv6, 16 =>
      let (networkId, addyBytes) := networkOf addy.address
      some ⟨networkId, addy.port, addyBytes⟩
    | _, _ => none

inductive IpAddr where
  | v4 (octets : ByteArr 4)
  | v6 (octets : ByteArr 16)
  deriving DecidableEq

namespace IpAddr

def isIpv4 : IpAddr → Bool
  | v4 _ => true
  | v6 _ => false

/-- An IPv4 address that is written as an IPv6 one becomes an IPv4 address. -/
def toCanonical : IpAddr → IpAddr
  | v6 ⟨[0, 0, 0, 0, 0, 0, 0, 0, 0, 0, 0xff, 0xff, a, b, c, d], _⟩ => v4 ⟨[a, b, c, d], rfl⟩
  | ip => ip

def octets : IpAddr → Bytes
  | v4 octets => octets.1
  | v6 octets => octets.1

end IpAddr

/-- The peers of a seed's addresses. The network is the one before `to_canonical`. -/
def resolveDns (addresses : List IpAddr) : List AddressPortNetwork :=
  addresses.map fun x => ⟨if x.isIpv4 then .ipv4 else .ipv6, 8333, x.toCanonical.octets⟩

/-- No seed answers with an IPv4 address that is written as an IPv6 one. `resolve_dns` does not ensure it: it makes an
IPv6 peer with the four bytes of the IPv4 address. -/
def Shortest (answers : List (Option (List IpAddr))) : Prop :=
  ∀ addresses, some addresses ∈ answers → ∀ ip ∈ addresses, ip.toCanonical = ip

theorem NetworkId.toU8_injective : Function.Injective NetworkId.toU8 := by
  intro n n' same
  have left := NetworkId.fromU8_toU8 n
  rw [same, NetworkId.fromU8_toU8 n'] at left
  exact (Option.some.inj left).symm

/-- The derived order: the network, the port, the address. -/
instance : LinearOrder AddressPortNetwork :=
  LinearOrder.lift' (fun p => toLex (p.networkId.toU8, toLex (p.port.toNat, p.address))) <| by
    intro ⟨networkId, port, address⟩ ⟨networkId', port', address'⟩ same
    obtain ⟨networks, rest⟩ := Prod.mk.inj (toLex.injective same)
    obtain ⟨ports, addresses⟩ := Prod.mk.inj (toLex.injective rest)
    cases NetworkId.toU8_injective networks
    cases UInt16.toNat.inj ports
    cases addresses
    rfl

/-- `resolve_dns_and_add_to_addrman`: what the seeds answer, where `none` is an error or a timeout. -/
def resolvedPeers (answers : List (Option (List IpAddr))) : List AddressPortNetwork :=
  sortDedup (answers.reverse.flatMap fun answer => (answer.map resolveDns).getD [])

namespace AddressPortNetwork

/-- The address that `Display` writes and `connect` parses again; none for an address of a wrong
length or of another network. -/
def ipAddr (p : AddressPortNetwork) : Option IpAddr :=
  match p.networkId with
  | .ipv4 => (ByteArr.ofBytes 4 p.address).map .v4
  | .ipv6 => (ByteArr.ofBytes 16 p.address).map .v6
  | _ => none

/-- The host and the port that a connection to the peer reaches. -/
def endpoint (p : AddressPortNetwork) : Option (IpAddr × UInt16) :=
  p.ipAddr.map fun ip => (ip.toCanonical, p.port)

/-- The peer stands for an address in its shortest form. -/
def Canonical (p : AddressPortNetwork) : Prop :=
  ∃ ip : IpAddr, ip.toCanonical = ip ∧ p = ⟨if ip.isIpv4 then .ipv4 else .ipv6, p.port, ip.octets⟩

variable {p q : AddressPortNetwork}

/-- The peer of a seed's address that is not in its shortest form cannot be dialled. -/
theorem endpoint_of_mapped {ip : IpAddr} (mapped : ip.toCanonical ≠ ip) :
    ∀ peer ∈ resolveDns [ip], peer.endpoint = none := by
  intro peer member
  rw [resolveDns, List.map_singleton, List.mem_singleton] at member
  rw [member]
  unfold IpAddr.toCanonical at mapped ⊢
  split at mapped
  · rfl
  · exact absurd rfl mapped

theorem Canonical.endpoint (canonical : p.Canonical) : ∃ ip : IpAddr, p.endpoint = some (ip, p.port) ∧
    p = ⟨if ip.isIpv4 then .ipv4 else .ipv6, p.port, ip.octets⟩ := by
  obtain ⟨ip, shortest, whole⟩ := canonical
  refine ⟨ip, ?_, whole⟩
  rw [whole]
  cases ip with
  | v4 octets | v6 octets =>
    simp [AddressPortNetwork.endpoint, ipAddr, IpAddr.isIpv4, IpAddr.octets, ByteArr.ofBytes, octets.2, shortest]

theorem Canonical.eq_of_endpoint (canonical : p.Canonical) (canonical' : q.Canonical)
    (same : p.endpoint = q.endpoint) : p = q := by
  obtain ⟨ip, reached, whole⟩ := canonical.endpoint
  obtain ⟨ip', reached', whole'⟩ := canonical'.endpoint
  rw [reached, reached', Option.some.injEq, Prod.mk.injEq] at same
  rw [whole, whole', same.1, same.2]

/-- The length of an address gives its network. -/
theorem Canonical.eq_of_address (canonical : p.Canonical) (canonical' : q.Canonical)
    (addresses : p.address = q.address) (ports : p.port = q.port) : p = q := by
  obtain ⟨ip, _, whole⟩ := canonical
  obtain ⟨ip', _, whole'⟩ := canonical'
  rw [whole, whole'] at addresses
  dsimp only at addresses
  have lengths := congrArg List.length addresses
  rw [whole, whole', addresses, ports]
  cases ip with
  | v4 octets =>
    cases ip' with
    | v4 octets' => rfl
    | v6 octets' => simp [IpAddr.octets, octets.2, octets'.2] at lengths
  | v6 octets =>
    cases ip' with
    | v4 octets' => simp [IpAddr.octets, octets.2, octets'.2] at lengths
    | v6 octets' => rfl

/-- The match of `handle_payload` and `to_canonical` agree. -/
theorem canonical_networkOf (octets : ByteArr 16) (port : UInt16) :
    Canonical ⟨(networkOf octets.1).1, port, (networkOf octets.1).2⟩ := by
  obtain ⟨address, length⟩ := octets
  unfold networkOf
  split
  · next a b c d _ => exact ⟨.v4 ⟨[a, b, c, d], rfl⟩, rfl, rfl⟩
  · next _ other =>
    refine ⟨.v6 ⟨address, length⟩, ?_, rfl⟩
    unfold IpAddr.toCanonical
    split
    · next same =>
      cases same
      exact absurd rfl (other _ _ _ _)
    · rfl

theorem canonical_of_addr {addys : List NetAddr} (heard : p ∈ addrPeers addys) : p.Canonical := by
  obtain ⟨addy, _, rfl⟩ := List.mem_map.mp heard
  exact canonical_networkOf addy.addr addy.port

theorem canonical_of_addrV2 {addys : List NetAddrV2} (heard : p ∈ addrV2Peers addys) : p.Canonical := by
  obtain ⟨addy, _, read⟩ := List.mem_filterMap.mp heard
  split at read
  · next length =>
    cases read
    exact ⟨.v4 ⟨addy.address, length⟩, rfl, rfl⟩
  · next length =>
    cases read
    exact canonical_networkOf ⟨addy.address, length⟩ addy.port
  · cases read

/-- A seed whose addresses are in their shortest form. -/
theorem canonical_of_dns {answers : List (Option (List IpAddr))} (shortest : Shortest answers) (heard : p ∈ resolvedPeers answers) : p.Canonical := by
  obtain ⟨answer, member, inAnswer⟩ := List.mem_flatMap.mp (mem_sortDedup.mp heard)
  cases answer with
  | none => cases inAnswer
  | some addresses =>
    obtain ⟨ip, inAddresses, rfl⟩ := List.mem_map.mp (show p ∈ resolveDns addresses from inAnswer)
    have same := shortest addresses (List.mem_reverse.mp member) ip inAddresses
    exact ⟨ip, same, by rw [same]⟩

end AddressPortNetwork

/-- The peers come from gossip, or from seeds that answer with shortest addresses. -/
def AddrManEvent.Heard : AddrManEvent → Prop
  | .seen apns _ => (∃ addys, apns = addrPeers addys) ∨ (∃ addys, apns = addrV2Peers addys) ∨
      ∃ answers, Shortest answers ∧ apns = resolvedPeers answers
  | _ => True

theorem AddrManEvent.Heard.canonical {apns : List AddressPortNetwork} {time : Nat} (heard : Heard (.seen apns time)) :
    ∀ peer ∈ apns, peer.Canonical := by
  obtain ⟨addys, rfl⟩ | ⟨addys, rfl⟩ | ⟨answers, shortest, rfl⟩ := heard
  · exact fun peer => AddressPortNetwork.canonical_of_addr
  · exact fun peer => AddressPortNetwork.canonical_of_addrV2
  · exact fun peer => AddressPortNetwork.canonical_of_dns shortest

namespace AddrMan

variable {s t : AddrMan} {event : AddrManEvent} {boot : Nat}

/-- When all peers come from gossip and from seeds that answer with shortest addresses, each known
peer can be dialled, no two crawl tasks dial the same host and port, and the deletion of a peer takes
its row only. -/
theorem one_task_per_endpoint {clock : Nat} {events : List AddrManEvent}
    (run : Run (Guarded (fun s event => SlowRestart s event ∧ event.Heard) Step) (new clock) events s) :
    (∀ peer ∈ s.knownPeers, peer.endpoint.isSome) ∧ (s.tasks.map (·.peer.endpoint)).Nodup ∧
      ∀ peer ∈ s.knownPeers, deletePeerRows s.peers ⟨peer⟩ = some (s.peers.erase peer) := by
  have kept : Sound s ∧ ∀ peer ∈ s.knownPeers, peer.Canonical := by
    refine run.invariant (P := fun s => Sound s ∧ ∀ peer ∈ s.knownPeers, peer.Canonical) ⟨Sound.new clock, ?_⟩ ?_
    · exact fun peer member => absurd member (by simp [new, started])
    · intro s event t before guarded
      obtain ⟨⟨boot, sound⟩, canonical⟩ := before
      obtain ⟨⟨slow, heard⟩, step⟩ := guarded
      refine ⟨Sound.step ⟨boot, sound⟩ slow step, fun peer known => ?_⟩
      rcases sound.known_of_step step known with before | ⟨apns, time, rfl, inApns⟩
      · exact canonical peer before
      · exact heard.canonical peer inApns
  obtain ⟨⟨boot, sound⟩, canonical⟩ := kept
  have crawled : ∀ task ∈ s.tasks, task.peer.Canonical := by
    intro task member
    exact canonical _ ((sound.known _).mpr (List.mem_append_right _ (List.mem_map_of_mem member)))
  have stored : ∀ row ∈ s.peers, row.Canonical := by
    intro row member
    exact canonical row (sound.rowsKnown row (List.mem_append_left _ (List.mem_append_left _ member)))
  refine ⟨fun peer known => ?_, ?_, fun peer known => ?_⟩
  · obtain ⟨ip, reached, _⟩ := (canonical peer known).endpoint
    rw [reached]
    rfl
  · refine List.Nodup.map_on (fun task member other member' same => ?_) sound.peers.of_map
    have peers := (crawled task member).eq_of_endpoint (crawled other member') same
    exact List.inj_on_of_nodup_map sound.peers member member' peers
  · have distinct : s.peers.Nodup := (List.nodup_append.mp (List.nodup_append.mp sound.rows).1).1
    rw [deletePeerRows, distinct.erase_eq_filter]
    refine congrArg some (List.filter_congr fun row member => ?_)
    by_cases same : row = peer
    · simp [same]
    · have other : ¬ (row.address = peer.address ∧ row.port = peer.port) := by
        intro both
        exact same ((stored row member).eq_of_address (canonical peer known) both.1 both.2)
      simp only [other, not_false_eq_true, decide_true]
      exact (bne_iff_ne.mpr same).symm

/-- A host that is heard of as an IPv4 address, and as the same address written as an IPv6 one. -/
def heardTwice : List AddrManEvent :=
  [.seen (addrPeers [⟨1, ⟨[0, 0, 0, 0, 0, 0, 0, 0, 0, 0, 0xff, 0xff, 10, 0, 0, 1], rfl⟩, 5, 8333⟩]) 1,
    .seen (addrV2Peers [⟨[10, 0, 0, 1], 1, 5, 8333, .ipv4⟩]) 2, .appends 0, .takes, .spawns]

theorem one_task_per_endpoint_mapped : (after next (new 0) heardTwice).tasks.length = 1 ∧
    ((after next (new 0) heardTwice).tasks.map (·.peer.endpoint)).Nodup := by
  have run : Run (Guarded (fun s event => SlowRestart s event ∧ event.Heard) Step) (new 0) heardTwice
      (after next (new 0) heardTwice) := by
    refine Run.guarded_of_labels (Run.of_after (fun _ _ _ taken => taken) (by decide)) fun event member s => ?_
    simp only [heardTwice, List.mem_cons, List.not_mem_nil, or_false] at member
    rcases member with rfl | rfl | rfl | rfl | rfl
    · exact ⟨trivial, Or.inl ⟨_, rfl⟩⟩
    · exact ⟨trivial, Or.inr (Or.inl ⟨_, rfl⟩)⟩
    · exact ⟨trivial, trivial⟩
    · exact ⟨trivial, trivial⟩
    · exact ⟨trivial, trivial⟩
  exact ⟨by decide, (one_task_per_endpoint run).2.1⟩

end AddrMan

end Bitlens

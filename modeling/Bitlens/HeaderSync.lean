import Bitlens.Connection
import Bitlens.Locator

namespace Bitlens
open Lib

/-- `need_ihd` at the second `now`: the top header is more than a day old. -/
def Chain.needIhd (now : Nat) (c : Chain) : Bool :=
  now > c.topHeader.header.timestamp.toNat && now - c.topHeader.header.timestamp.toNat > 24 * 3600

/-- What `handle_packet_during_headersync` returns and what it does to the variables of
its caller: whether it sets `need_break`, and whether it sets the deadline anew. -/
structure HeadersHandled where
  needBreak : Bool
  extended : Bool
  responses : Option (List PayloadToSend)

def Chainman.handlePacketDuringHeadersync (p : Profile) (now : Nat) (packet : ReceivedPayload) (w : Chainman) :
    Chainman × Outcome HeadersHandled :=
  match packet with
  | .headers headers =>
    match headers.getLast? with
    | none => (w, .ok ⟨true, false, none⟩)
    | some last =>
      match w.validateAndApplyHeaders p headers with
      | (w', .ok _) =>
        if w'.chain.needIhd now then
          (w', .ok ⟨false, true,
            some [.getHeaders { version := 70016, blockLocator := [last.hash], hashStop := emptyHash }]⟩)
        else (w', .ok ⟨true, true, none⟩)
      | (w', .err) => (w', .ok ⟨true, false, none⟩)
      | (w', .fault) => (w', .fault)
  | _ => (w, .ok ⟨false, false, none⟩)

/-- Where `sync_headers` is: it evaluates `need_ihd` and connects, or it reads from the
peer it is connected to. -/
inductive SyncPoint where
  | connecting | reading | done | panicked
  deriving DecidableEq

/-- The chain manager during `sync_headers`, and the requests written to peers. -/
structure HeaderSync where
  chainman : Chainman
  point : SyncPoint
  requests : List PayloadToSend

/-- The steps of `sync_headers`. A `receive` is a packet in time, whatever the peer sends;
`written` says whether the writes on the connection succeed. -/
inductive HeaderSyncEvent where
  | connect (now : Nat) (written : Bool)
  | receive (now : Nat) (getArena : Nat → Arena) (stream : Bytes) (written : Bool)
  | timeout
  | finish (now : Nat)

namespace HeaderSync

def start (w : Chainman) : HeaderSync := ⟨w, .connecting, []⟩

/-- The responses are written; the loop goes on unless `need_break` is set or a write fails. -/
def respond (s : HeaderSync) (written : Bool) : Chainman × Outcome HeadersHandled → HeaderSync
  | (w, .ok handled) =>
    let responses := handled.responses.getD []
    if written || responses.isEmpty then
      ⟨w, if handled.needBreak then .connecting else .reading, s.requests ++ responses⟩
    else ⟨w, .connecting, s.requests⟩
  | (w, _) => ⟨w, .panicked, s.requests⟩

/-- One step, where it is possible. -/
def next (p : Profile) (sha256 : Bytes → Hash) (s : HeaderSync) : HeaderSyncEvent → Option HeaderSync
  | .connect now written =>
    if s.point = .connecting ∧ s.chainman.chain.needIhd now then
      match s.chainman.chain.buildGetHeaders p with
      | .ok getHeaders =>
        some (if written then ⟨s.chainman, .reading, s.requests ++ [.getHeaders getHeaders]⟩ else s)
      | _ => some { s with point := .panicked }
    else none
  | .receive now getArena stream written =>
    if s.point = .reading then
      match readPacket sha256 getArena stream with
      | .ok (.ok (packet, _)) =>
        match packet.payload with
        | some payload => some (s.respond written (s.chainman.handlePacketDuringHeadersync p now payload))
        | none => some s
      | _ => some { s with point := .connecting }
    else none
  | .timeout => if s.point = .reading then some { s with point := .connecting } else none
  | .finish now =>
    if s.point = .connecting ∧ ¬ s.chainman.chain.needIhd now then some { s with point := .done } else none

def Step (p : Profile) (sha256 : Bytes → Hash) (s : HeaderSync) (event : HeaderSyncEvent) (t : HeaderSync) : Prop :=
  s.next p sha256 event = some t

end HeaderSync

end Bitlens

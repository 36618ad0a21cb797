import Bitlens.Endpoints
import Bitlens.Handshake
import Bitlens.HeaderAnswers
import Bitlens.HeaderSyncSafety
import Bitlens.Miners
import Bitlens.Startup

namespace Bitlens
open Lib

/-- The values of `SYNCING_HEADERS` and `SYNCING_BODIES` that a task loads. -/
structure SyncFlags where
  syncingHeaders : Bool
  syncingBodies : Bool

def SyncFlags.shouldProcessHeaders (flags : SyncFlags) : Bool := !flags.syncingHeaders

def SyncFlags.shouldProcessBlocks (flags : SyncFlags) : Bool := flags.shouldProcessHeaders && !flags.syncingBodies

/-- What the task of a peer does: it writes a packet, gives peers to `peers_seen`, a header or a block
to the chain watcher, or notes that the peer is online. -/
inductive SessionEffect where
  | writes (packet : PayloadToSend)
  | seen (apns : List AddressPortNetwork) (time : Nat)
  | watches (item : BlockHeaderOwned ⊕ Block)
  | online

/-- The blocks that a `getdata` asks for, with or without witness data, and the rest, which is not found. -/
def extractBlockRequests (getData : List InventoryVector) : List (Hash × Bool) × List InventoryVector :=
  (getData.filterMap fun entity => match entity.invType with
      | .block => some (entity.hash, false)
      | .witnessBlock => some (entity.hash, true)
      | _ => none,
    getData.filter fun entity => match entity.invType with
      | .block | .witnessBlock => false
      | _ => true)

/-- The arm of `handle_payload` for an `inv` message. -/
def announcedBlocks (inner : List InventoryVector) : List InventoryVector :=
  inner.filterMap fun item => match item.invType with
    | .block => some ⟨.witnessBlock, item.hash⟩
    | _ => none

/-- The new `block_requests`, what is done, and the responses. The chain is the one that
`respond_to_getheaders` finds. -/
def handlePayload (p : Profile) (chain : Chain) (flags : SyncFlags) (time : Nat) (payload : Option ReceivedPayload)
    (blockRequests : List (Hash × Bool)) :
    Outcome (List (Hash × Bool) × List SessionEffect × Option (List PayloadToSend)) :=
  match payload with
  | none => .ok (blockRequests, [], none)
  | some payload =>
    match payload with
    | .ping nonce => .ok (blockRequests, [], some [.pong nonce])
    | .addr addys => .ok (blockRequests, [.seen (addrPeers addys) time], none)
    | .addrV2 addys => .ok (blockRequests, [.seen (addrV2Peers addys) time], none)
    | .block _ | .headers _ =>
      .ok (blockRequests, (sendsOf flags.shouldProcessHeaders flags.shouldProcessBlocks payload).map .watches, none)
    | .inv inner =>
      .ok (blockRequests, [], if flags.shouldProcessHeaders then some [.getData (announcedBlocks inner)] else none)
    | .getHeaders v =>
      if flags.shouldProcessHeaders then do
        let headers ← chain.respondToGetheaders p v.blockLocator v.hashStop
        pure (blockRequests, [], headers.map fun headers => [.headers headers])
      else .ok (blockRequests, [], none)
    | .getData inner =>
      let (requests, notFound) := extractBlockRequests inner
      .ok (blockRequests ++ requests, [], if notFound.isEmpty then none else some [.notFound notFound])
    | _ => .ok (blockRequests, [], none)

/-- Where the task of a peer is behind the handshake: before its first packets, in its loop, or behind
an error or a panic. -/
inductive SessionPoint where
  | greeting
  | asking
  | looping
  | ended
  | panicked
  deriving DecidableEq

/-- `reads` is what the reader task still sends. -/
structure PeerSession where
  point : SessionPoint
  reads : List (Except Error Packet)
  blockRequests : List (Hash × Bool)
  packetsReceivedTotal : Nat
  effects : List SessionEffect

/-- A branch of the loop, with what it finds. A `getBlock` of none is an error; `fails` is any error
that ends the session: of a write, of a channel, or of a job that is lost. -/
inductive SessionEvent where
  | greets
  | asks (chain : Chain)
  | announces (hash : Hash)
  | pings (nonce : UInt64)
  | serves (getBlock : Option Block)
  | receives (chain : Chain) (flags : SyncFlags) (time : Nat)
  | works (job : Hash) (flags : SyncFlags)
  | fails

namespace PeerSession

def start (reads : List (Except Error Packet)) : PeerSession := ⟨.greeting, reads, [], 0, []⟩

def did (s : PeerSession) (effects : List SessionEffect) : PeerSession := { s with effects := s.effects ++ effects }

def next (p : Profile) (s : PeerSession) : SessionEvent → Option PeerSession
  | .greets => if s.point = .greeting then some { s.did [.writes .getAddr] with point := .asking } else none
  | .asks chain =>
    if s.point = .asking then
      match chain.getTopSyncedHeaderHash with
      | .ok hash => some { s.did [.writes (askFrom [hash.getD emptyHash])] with point := .looping }
      | _ => some { s with point := .panicked }
    else none
  | .announces hash =>
    if s.point = .looping then some (s.did [.writes (.inv [⟨.block, hash⟩])]) else none
  | .pings nonce => if s.point = .looping then some (s.did [.writes (.ping nonce)]) else none
  | .serves getBlock =>
    if s.point = .looping then
      match s.blockRequests, getBlock with
      | [], _ => some s
      | _ :: blockRequests, some block => some { s.did [.writes (.block block)] with blockRequests := blockRequests }
      | (nextBlock, needWitnessData) :: blockRequests, none =>
        let item : InventoryVector := ⟨if needWitnessData then .witnessBlock else .block, nextBlock⟩
        some { s.did [.writes (.notFound [item])] with blockRequests := blockRequests }
    else none
  | .receives chain flags time =>
    if s.point = .looping then
      match s.reads with
      | .ok packet :: reads =>
        match handlePayload p chain flags time packet.payload s.blockRequests with
        | .ok (blockRequests, effects, responses) =>
          let effects := effects ++ (responses.getD []).map .writes
          let s := { s.did effects with reads := reads, blockRequests := blockRequests }
          match p.add 32 s.packetsReceivedTotal 1 with
          | .ok total => some { s.did [.online] with packetsReceivedTotal := total }
          | _ => some { s with point := .panicked }
        | _ => some { s with reads := reads, point := .panicked }
      | _ => some { s with point := .ended }
    else none
  | .works job flags =>
    if s.point = .looping then
      some (s.did (if flags.shouldProcessBlocks then [.writes (.getData [⟨.witnessBlock, job⟩])] else []))
    else none
  | .fails => if s.point = .ended ∨ s.point = .panicked then none else some { s with point := .ended }

def Step (p : Profile) (s : PeerSession) (event : SessionEvent) (t : PeerSession) : Prop :=
  s.next p event = some t

end PeerSession

end Bitlens

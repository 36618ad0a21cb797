import Bitlens.OnlineList

namespace Bitlens
open Lib

structure InvalidChecksum where
  reportedInHeader : UInt32
  calculatedFromBody : UInt32
  deriving DecidableEq

/-- `anyhow::Error`: what it downcasts to and its text. -/
structure Error where
  invalidChecksum : Option InvalidChecksum
  text : String
  deriving DecidableEq

/-- `anyhow!` and `bail!` with a text. -/
def Error.message (text : String) : Error := ⟨none, text⟩

/-- `{:#X}`. -/
def upperHex (n : Nat) : String :=
  "0x" ++ String.ofList ((Nat.toDigits 16 n).map Char.toUpper)

/-- `bail!` with the error itself. -/
def InvalidChecksum.error (e : InvalidChecksum) : Error :=
  ⟨some e, "expected " ++ upperHex e.reportedInHeader.toNat ++ " got " ++ upperHex e.calculatedFromBody.toNat⟩

/-- Durations are nanoseconds. -/
abbrev Duration := Nat

def asSecs (duration : Duration) : Nat := duration / 1000000000

structure CrawlResult where
  shouldInstaBan : Bool
  connectHandshakeError : Option Error
  packetsReceivedTotal : UInt32
  connectionTime : Duration
  deriving DecidableEq

def CrawlResult.default : CrawlResult := ⟨false, none, 0, 0⟩

/-- What a peer does in one round of `crawl_with_backoff`: `connect_and_handshake` fails, or packets
arrive until the connection ends with an error. -/
structure Session where
  connection : Except Error (UInt32 × Error)
  duration : Duration

/-- The result record after the call and the error that it returns. -/
def crawl (peer : AddressPortNetwork) (session : Session) (res : CrawlResult) : CrawlResult × Error :=
  let res := { res with packetsReceivedTotal := 0 }
  match peer.networkId with
  | .ipv4 | .ipv6 =>
    match session.connection with
    | .error e => ({ res with connectHandshakeError := some e }, .message "failed to connect/handshake")
    | .ok (packets, reason) => ({ res with packetsReceivedTotal := packets }, reason)
  | _ => ({ res with shouldInstaBan := true }, .message "unsupported network type")

/-- The new value of `failed_times` and the reason that is returned. -/
def evaluateCrawlResult (result : CrawlResult) (disconnectReason : Error) (failedTimes : Nat) : Nat × Option String :=
  match result.connectHandshakeError with
  | some e =>
    (if e.invalidChecksum.isSome then failedTimes + 14 else failedTimes + 1,
      some ("connect/handshake failed: " ++ e.text))
  | none =>
    if disconnectReason.invalidChecksum.isSome then (14, some "invalid checksum")
    else if result.shouldInstaBan then (14, some ("insta_ban requested: " ++ disconnectReason.text))
    else if result.packetsReceivedTotal < 10 then
      (failedTimes + 1,
        some ("packet count below minumum threshold: wanted 10 got " ++ toString result.packetsReceivedTotal))
    else if asSecs result.connectionTime < 10 then
      (failedTimes, some ("connection duration below minumum threshold: wanted >=10 seconds got " ++
        toString (asSecs result.connectionTime) ++ " seconds"))
    else (0, none)

/-- The variables of `crawl_with_backoff`. -/
structure Backoff where
  failedTimes : Nat
  failReasons : List String
  crawlResult : CrawlResult
  deriving DecidableEq

namespace Backoff

def new : Backoff := ⟨0, [], .default⟩

/-- The body of the loop of `crawl_with_backoff`. -/
def crawlOnce (peer : AddressPortNetwork) (session : Session) (s : Backoff) : Backoff :=
  let (res, disconnectReason) := crawl peer session s.crawlResult
  let res := { res with connectionTime := session.duration }
  let (failedTimes, reason) := evaluateCrawlResult res disconnectReason s.failedTimes
  { failedTimes := failedTimes
    failReasons := match reason with
      | some reason => s.failReasons ++ [reason]
      | none => []
    crawlResult := res }

/-- A round of the loop, which ends with the ban of the peer. -/
def CrawlsOnce (peer : AddressPortNetwork) (s : Backoff) (session : Session) (t : Backoff) : Prop :=
  s.failedTimes < 14 ∧ t = s.crawlOnce peer session

end Backoff

end Bitlens

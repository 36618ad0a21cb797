import Mathlib.Tactic
import Bitlens.Crawl
import Bitlens.Lib.Run

namespace Bitlens
open Lib

def Supported (peer : AddressPortNetwork) : Prop :=
  peer.networkId = .ipv4 ∨ peer.networkId = .ipv6

instance (peer : AddressPortNetwork) : Decidable (Supported peer) :=
  inferInstanceAs (Decidable (_ ∨ _))

/-- The error that a session ends with, of the handshake or of the connection behind it. -/
def Session.error (session : Session) : Error :=
  match session.connection with
  | .error e => e
  | .ok (_, reason) => reason

/-- Connected, handshaked, ten packets and ten seconds, and no violation. -/
def Session.Good (peer : AddressPortNetwork) (session : Session) : Prop :=
  Supported peer ∧ session.error.invalidChecksum = none ∧ 10 ≤ asSecs session.duration ∧
    ∃ result ∈ session.connection.toOption, 10 ≤ result.1

instance (peer : AddressPortNetwork) (session : Session) : Decidable (session.Good peer) :=
  inferInstanceAs (Decidable (_ ∧ _))

/-- A peer of another network, or a violation of the checksum protocol. -/
def Session.InstantBan (peer : AddressPortNetwork) (session : Session) : Prop :=
  ¬ Supported peer ∨ session.error.invalidChecksum ≠ none

theorem Session.good_iff {peer : AddressPortNetwork} {session : Session} {packets : UInt32} {reason : Error}
    (supported : Supported peer) (connects : session.connection = .ok (packets, reason)) :
    session.Good peer ↔ reason.invalidChecksum = none ∧ 10 ≤ packets ∧ 10 ≤ asSecs session.duration := by
  simp [Session.Good, Session.error, supported, connects, Except.toOption, and_comm]

theorem Session.instantBan_iff {peer : AddressPortNetwork} (session : Session) (supported : Supported peer) :
    session.InstantBan peer ↔ session.error.invalidChecksum ≠ none := by
  simp [Session.InstantBan, supported]

namespace Backoff

/-- What a session should do to the counter and to the reasons. -/
structure Accounts (peer : AddressPortNetwork) (s : Backoff) (session : Session) (t : Backoff) : Prop where
  good : session.Good peer → t.failedTimes = 0 ∧ t.failReasons = []
  failed : ¬ session.Good peer → s.failedTimes + 1 ≤ t.failedTimes ∧ t.failReasons.length = s.failReasons.length + 1
  once : ¬ session.Good peer → ¬ session.InstantBan peer → t.failedTimes = s.failedTimes + 1
  instant : session.InstantBan peer → 14 ≤ t.failedTimes

/-- A connection behind a failed handshake is not a good one, and a violation comes as the last
failure; one without a failed handshake before it does not end too early after ten packets. -/
def Counts (peer : AddressPortNetwork) (s : Backoff) (session : Session) : Prop :=
  Supported peer → ∀ packets reason, session.connection = .ok (packets, reason) →
    match s.crawlResult.connectHandshakeError with
    | none => reason.invalidChecksum = none → 10 ≤ packets → 10 ≤ asSecs session.duration
    | some _ =>
      if reason.invalidChecksum = none then ¬ (10 ≤ packets ∧ 10 ≤ asSecs session.duration) else s.failedTimes = 13

/-- What is left in the result record. -/
structure Recorded (peer : AddressPortNetwork) (s : Backoff) : Prop where
  instaBan : s.crawlResult.shouldInstaBan = true → ¬ Supported peer
  stale : ∀ e ∈ s.crawlResult.connectHandshakeError, Supported peer ∧ (e.invalidChecksum = none ∨ 14 ≤ s.failedTimes)

variable {peer : AddressPortNetwork} {s t : Backoff} {session : Session} {sessions : List Session}

theorem recorded_new : Recorded peer new := by
  constructor <;> simp [new, CrawlResult.default]

theorem crawl_of_supported (supported : Supported peer) (res : CrawlResult) : crawl peer session res =
    match session.connection with
    | .error e => ({ res with packetsReceivedTotal := 0, connectHandshakeError := some e },
        .message "failed to connect/handshake")
    | .ok (packets, reason) => ({ res with packetsReceivedTotal := packets }, reason) := by
  obtain ⟨networkId, port, address⟩ := peer
  rcases supported with network | network
  · cases network
    rfl
  · cases network
    rfl

theorem crawl_of_not_supported (unsupported : ¬ Supported peer) (res : CrawlResult) : crawl peer session res =
    ({ res with packetsReceivedTotal := 0, shouldInstaBan := true }, .message "unsupported network type") := by
  unfold crawl
  split
  · next network => exact absurd (Or.inl network) unsupported
  · next network => exact absurd (Or.inr network) unsupported
  · rfl

/-- A peer of another network is banned at once. -/
theorem Recorded.of_not_supported (unsupported : ¬ Supported peer) (recorded : Recorded peer s) :
    (s.crawlOnce peer session).failedTimes = 14 ∧
      (s.crawlOnce peer session).failReasons.length = s.failReasons.length + 1 ∧
      Recorded peer (s.crawlOnce peer session) := by
  have clear : s.crawlResult.connectHandshakeError = none := by
    rw [Option.eq_none_iff_forall_not_mem]
    exact fun e stale => unsupported (recorded.stale e stale).1
  have result : s.crawlOnce peer session = ⟨14, s.failReasons ++ ["insta_ban requested: unsupported network type"],
      ⟨true, none, 0, session.duration⟩⟩ := by
    simp [crawlOnce, crawl_of_not_supported unsupported, evaluateCrawlResult, clear, Error.message]
  rw [result]
  exact ⟨rfl, List.length_append, fun _ => unsupported, by simp⟩

/-- A failed connection or handshake. -/
theorem crawlOnce_error {e : Error} (supported : Supported peer) (fails : session.connection = .error e) :
    s.crawlOnce peer session =
      ⟨if e.invalidChecksum.isSome then s.failedTimes + 14 else s.failedTimes + 1,
        s.failReasons ++ ["connect/handshake failed: " ++ e.text],
        ⟨s.crawlResult.shouldInstaBan, some e, 0, session.duration⟩⟩ := by
  simp [crawlOnce, crawl_of_supported supported, fails, evaluateCrawlResult]

/-- A connection behind an earlier failure is counted as that failure again. -/
theorem crawlOnce_stale {e : Error} {packets : UInt32} {reason : Error} (supported : Supported peer)
    (connects : session.connection = .ok (packets, reason)) (stale : s.crawlResult.connectHandshakeError = some e) :
    s.crawlOnce peer session =
      ⟨if e.invalidChecksum.isSome then s.failedTimes + 14 else s.failedTimes + 1,
        s.failReasons ++ ["connect/handshake failed: " ++ e.text],
        ⟨s.crawlResult.shouldInstaBan, some e, packets, session.duration⟩⟩ := by
  simp [crawlOnce, crawl_of_supported supported, connects, evaluateCrawlResult, stale]

/-- A connection of a peer without an earlier failure is judged by itself. -/
theorem crawlOnce_fresh {packets : UInt32} {reason : Error} (supported : Supported peer)
    (recorded : Recorded peer s) (connects : session.connection = .ok (packets, reason))
    (clear : s.crawlResult.connectHandshakeError = none) :
    s.crawlOnce peer session =
      let evaluated := evaluateCrawlResult ⟨false, none, packets, session.duration⟩ reason s.failedTimes
      ⟨evaluated.1,
        match evaluated.2 with
        | some text => s.failReasons ++ [text]
        | none => [],
        ⟨false, none, packets, session.duration⟩⟩ := by
  have served : s.crawlResult.shouldInstaBan = false := by
    by_contra banned
    exact recorded.instaBan (by simpa using banned) supported
  have read : crawl peer session s.crawlResult =
      (⟨false, none, packets, s.crawlResult.connectionTime⟩, reason) := by
    rw [crawl_of_supported supported, connects, ← served, ← clear]
  unfold Backoff.crawlOnce
  generalize crawl peer session s.crawlResult = result at read
  subst read
  rfl

theorem Recorded.crawlOnce (recorded : Recorded peer s) (more : s.failedTimes < 14) :
    Recorded peer (s.crawlOnce peer session) := by
  by_cases supported : Supported peer
  · cases connects : session.connection with
    | error e =>
      rw [crawlOnce_error supported connects]
      refine ⟨recorded.instaBan, fun e' same => ⟨supported, ?_⟩⟩
      cases same
      cases violation : e.invalidChecksum <;> simp
    | ok result =>
      cases stale : s.crawlResult.connectHandshakeError with
      | none =>
        rw [crawlOnce_fresh supported recorded connects stale]
        exact ⟨by simp, by simp⟩
      | some e =>
        rw [crawlOnce_stale supported connects stale]
        refine ⟨recorded.instaBan, fun e' same => ⟨supported, Or.inl ?_⟩⟩
        cases same
        exact (recorded.stale e stale).2.resolve_right (Nat.not_le_of_lt more)
  · exact (recorded.of_not_supported supported).2.2

theorem accounts_of_error {e : Error} (supported : Supported peer) (fails : session.connection = .error e) :
    Accounts peer s session (s.crawlOnce peer session) := by
  have bad : ¬ session.Good peer := by simp [Session.Good, fails, Except.toOption]
  have error : session.error = e := by simp [Session.error, fails]
  rw [crawlOnce_error supported fails]
  refine ⟨fun good => absurd good bad, fun _ => ⟨?_, List.length_append⟩, fun _ once => ?_, fun instant => ?_⟩
  · dsimp only
    split <;> omega
  · rw [Session.instantBan_iff _ supported, error, not_not] at once
    simp [once]
  · rw [Session.instantBan_iff _ supported, error, ← Option.isSome_iff_ne_none] at instant
    simp [instant]

theorem Recorded.accounts_iff_of_stale {e : Error} {packets : UInt32} {reason : Error} (supported : Supported peer)
    (recorded : Recorded peer s) (more : s.failedTimes < 14)
    (connects : session.connection = .ok (packets, reason)) (stale : s.crawlResult.connectHandshakeError = some e) :
    Accounts peer s session (s.crawlOnce peer session) ↔
      if reason.invalidChecksum = none then ¬ (10 ≤ packets ∧ 10 ≤ asSecs session.duration) else s.failedTimes = 13 := by
  have mild : e.invalidChecksum = none := (recorded.stale e stale).2.resolve_right (Nat.not_le_of_lt more)
  have error : session.error = reason := by simp [Session.error, connects]
  have good := Session.good_iff supported connects
  have instant := session.instantBan_iff supported
  rw [error] at instant
  rw [crawlOnce_stale supported connects stale]
  simp only [mild, Option.isSome_none, Bool.false_eq_true, if_false]
  by_cases orderly : reason.invalidChecksum = none
  · rw [if_pos orderly]
    have once : ¬ session.InstantBan peer := by simp [instant, orderly]
    have enough : session.Good peer ↔ 10 ≤ packets ∧ 10 ≤ asSecs session.duration := by simp [good, orderly]
    rw [← enough]
    constructor
    · intro accounts reset
      exact absurd (accounts.good reset).1 (Nat.succ_ne_zero _)
    · intro bad
      exact ⟨fun reset => absurd reset bad, fun _ => ⟨le_rfl, List.length_append⟩, fun _ _ => rfl,
        fun banned => absurd banned once⟩
  · rw [if_neg orderly]
    have banned : session.InstantBan peer := instant.mpr orderly
    have bad : ¬ session.Good peer := fun reset => orderly (good.mp reset).1
    constructor
    · intro accounts
      have enough : 14 ≤ s.failedTimes + 1 := accounts.instant banned
      omega
    · intro last
      refine ⟨fun reset => absurd reset bad, fun _ => ⟨le_rfl, List.length_append⟩, fun _ once => absurd banned once,
        fun _ => ?_⟩
      dsimp only
      omega

theorem Recorded.accounts_iff_of_fresh {packets : UInt32} {reason : Error} (supported : Supported peer)
    (recorded : Recorded peer s) (more : s.failedTimes < 14)
    (connects : session.connection = .ok (packets, reason)) (clear : s.crawlResult.connectHandshakeError = none) :
    Accounts peer s session (s.crawlOnce peer session) ↔
      (reason.invalidChecksum = none → 10 ≤ packets → 10 ≤ asSecs session.duration) := by
  have error : session.error = reason := by simp [Session.error, connects]
  have good := Session.good_iff supported connects
  have instant := session.instantBan_iff supported
  rw [error] at instant
  rw [crawlOnce_fresh supported recorded connects clear]
  by_cases orderly : reason.invalidChecksum = none
  · have once : ¬ session.InstantBan peer := by simp [instant, orderly]
    by_cases few : packets < 10
    · have bad : ¬ session.Good peer := fun reset => absurd (good.mp reset).2.1 (UInt32.not_le.mpr few)
      simp only [evaluateCrawlResult, orderly, few, Option.isSome_none, Bool.false_eq_true, if_false, if_true]
      refine ⟨fun _ _ enough => absurd enough (UInt32.not_le.mpr few), fun _ => ⟨fun reset => absurd reset bad,
        fun _ => ⟨le_rfl, List.length_append⟩, fun _ _ => rfl, fun banned => absurd banned once⟩⟩
    · have enough : 10 ≤ packets := UInt32.not_lt.mp few
      by_cases short : asSecs session.duration < 10
      · have bad : ¬ session.Good peer := fun reset => absurd (good.mp reset).2.2 (not_le.mpr short)
        simp only [evaluateCrawlResult, orderly, few, short, Option.isSome_none, Bool.false_eq_true, if_false, if_true]
        constructor
        · intro accounts
          exact absurd (accounts.failed bad).1 (Nat.not_succ_le_self _)
        · intro long
          exact absurd (long trivial enough) (not_le.mpr short)
      · have reset : session.Good peer := good.mpr ⟨orderly, enough, not_lt.mp short⟩
        simp only [evaluateCrawlResult, orderly, few, short, Option.isSome_none, Bool.false_eq_true, if_false]
        exact ⟨fun _ _ _ => not_lt.mp short, fun _ => ⟨fun _ => ⟨rfl, rfl⟩, fun bad => absurd reset bad,
          fun bad => absurd reset bad, fun banned => absurd banned once⟩⟩
  · have banned : session.InstantBan peer := instant.mpr orderly
    have bad : ¬ session.Good peer := fun reset => orderly (good.mp reset).1
    have violation : reason.invalidChecksum.isSome = true := Option.isSome_iff_ne_none.mpr orderly
    simp only [evaluateCrawlResult, violation, if_true]
    refine ⟨fun _ none => absurd none orderly, fun _ => ⟨fun reset => absurd reset bad, fun _ => ⟨?_, List.length_append⟩,
      fun _ once => absurd banned once, fun _ => le_rfl⟩⟩
    dsimp only
    omega

/-- A round of the loop does what it should exactly under the condition. -/
theorem Recorded.accounts_iff_counts (recorded : Recorded peer s) (more : s.failedTimes < 14) :
    Accounts peer s session (s.crawlOnce peer session) ↔ Counts peer s session := by
  by_cases supported : Supported peer
  · cases connects : session.connection with
    | error e =>
      refine ⟨fun _ _ packets reason result => ?_, fun _ => accounts_of_error supported connects⟩
      rw [connects] at result
      cases result
    | ok result =>
      obtain ⟨packets, reason⟩ := result
      cases stale : s.crawlResult.connectHandshakeError with
      | none =>
        rw [recorded.accounts_iff_of_fresh supported more connects stale]
        simp [Counts, supported, connects, stale]
      | some e =>
        rw [recorded.accounts_iff_of_stale supported more connects stale]
        simp [Counts, supported, connects, stale]
  · obtain ⟨failed, reasons, _⟩ := @Recorded.of_not_supported peer s session supported recorded
    have bad : ¬ session.Good peer := fun good => supported good.1
    refine ⟨fun _ inside => absurd inside supported, fun _ => ⟨fun good => absurd good bad, fun _ => ⟨?_, reasons⟩,
      fun _ once => absurd (Or.inl supported) once, fun _ => failed.ge⟩⟩
    omega

/-- The sessions behind the last good one. -/
def sinceGood (peer : AddressPortNetwork) (sessions : List Session) : List Session :=
  sessions.foldl (fun since session => if session.Good peer then [] else since ++ [session]) []

theorem sinceGood_concat (sessions : List Session) (session : Session) :
    sinceGood peer (sessions ++ [session]) = if session.Good peer then [] else sinceGood peer sessions ++ [session] := by
  simp [sinceGood]

/-- The counter and the reasons are about the sessions behind the last good one, and the peer is
banned after fourteen of them or one that bans it at once. -/
structure Fair (peer : AddressPortNetwork) (sessions : List Session) (s : Backoff) : Prop where
  counted : s.failedTimes < 14 → s.failedTimes = (sinceGood peer sessions).length
  reasons : s.failReasons.length = (sinceGood peer sessions).length
  few : s.failReasons.length ≤ 14
  banned : 14 ≤ s.failedTimes ↔
    14 ≤ (sinceGood peer sessions).length ∨ ∃ session ∈ sinceGood peer sessions, session.InstantBan peer

theorem fair_new : Fair peer [] new :=
  ⟨fun _ => rfl, rfl, by decide, by simp [new, sinceGood]⟩

theorem Fair.next (fair : Fair peer sessions s) (more : s.failedTimes < 14) (accounts : Accounts peer s session t) :
    Fair peer (sessions ++ [session]) t := by
  have before := fair.counted more
  have mild : ∀ other ∈ sinceGood peer sessions, ¬ other.InstantBan peer := fun other member instant =>
    absurd (fair.banned.mpr (Or.inr ⟨other, member, instant⟩)) (Nat.not_le_of_lt more)
  by_cases good : session.Good peer
  · obtain ⟨failed, reasons⟩ := accounts.good good
    have since : sinceGood peer (sessions ++ [session]) = [] := by rw [sinceGood_concat, if_pos good]
    exact ⟨by simp [since, failed], by simp [since, reasons], by simp [reasons], by simp [since, failed]⟩
  · obtain ⟨failed, reasons⟩ := accounts.failed good
    have since : sinceGood peer (sessions ++ [session]) = sinceGood peer sessions ++ [session] := by
      rw [sinceGood_concat, if_neg good]
    have length : (sinceGood peer (sessions ++ [session])).length = s.failedTimes + 1 := by
      rw [since, List.length_append, ← before, List.length_singleton]
    have recorded := fair.reasons
    refine ⟨fun few => ?_, by omega, by omega, fun many => ?_, ?_⟩
    · rw [length]
      exact accounts.once good fun instant => absurd (accounts.instant instant) (Nat.not_le_of_lt few)
    · by_cases instant : session.InstantBan peer
      · exact Or.inr ⟨session, by simp [since], instant⟩
      · rw [length, ← accounts.once good instant]
        exact Or.inl many
    · rintro (many | ⟨other, member, instant⟩)
      · omega
      · rw [since, List.mem_append, List.mem_singleton] at member
        rcases member with earlier | rfl
        · exact absurd instant (mild other earlier)
        · exact accounts.instant instant

/-- The sessions of a peer are accounted for, and the peer is banned, as they should be exactly when
each session meets the condition. -/
theorem accounts_iff (peer : AddressPortNetwork) (sessions : List Session) (s : Backoff) :
    (Run (fun s session t => CrawlsOnce peer s session t ∧ Accounts peer s session t) new sessions s ∧
        Fair peer sessions s) ↔
      Run (Guarded (Counts peer) (CrawlsOnce peer)) new sessions s := by
  have recorded : ∀ {sessions s}, Run (CrawlsOnce peer) new sessions s → Recorded peer s := fun run =>
    run.invariant recorded_new fun _ _ _ before taken => taken.2 ▸ before.crawlOnce taken.1
  constructor
  · rintro ⟨run, -⟩
    induction run with
    | nil => exact .nil
    | snoc previous last ih =>
      refine ih.snoc ⟨?_, last.1⟩
      rw [← (recorded ih.unguarded).accounts_iff_counts last.1.1, ← last.1.2]
      exact last.2
  · intro run
    have accounted : Run (fun s session t => CrawlsOnce peer s session t ∧ Accounts peer s session t) new sessions s := by
      induction run with
      | nil => exact .nil
      | snoc previous last ih =>
        refine ih.snoc ⟨last.2, ?_⟩
        rw [last.2.2]
        exact ((recorded previous.unguarded).accounts_iff_counts last.2.1).mpr last.1
    exact ⟨accounted, accounted.history fair_new fun _ _ _ _ fair taken => fair.next taken.1.1 taken.2⟩

/-- A peer that first refuses the connection and then serves for a minute. -/
def refusingPeer : AddressPortNetwork := ⟨.ipv4, 8333, [10, 0, 0, 1]⟩

def refused : Session := ⟨.error (.message "Connection refused (os error 111)"), 500000000⟩
def served : Session := ⟨.ok (12, .message "early eof"), 60000000000⟩

/-- The good session is counted as a second failed connection. -/
theorem accounts_fails :
    ∃ s, Run (CrawlsOnce refusingPeer) new [refused, served] s ∧ served.Good refusingPeer ∧ s.failedTimes = 2 ∧
      ¬ Fair refusingPeer [refused, served] s := by
  refine ⟨_, .snoc (.single ⟨by decide, rfl⟩) ⟨by decide, rfl⟩, by decide, rfl, fun fair => ?_⟩
  exact absurd (fair.counted (by decide)) (by decide)

end Backoff

end Bitlens

import Bitlens.BanAccounting
import Bitlens.Connection

namespace Bitlens
open Lib
open Backoff (refusingPeer)

/-- An error that is not one of the checksum. -/
def Error.Ordinary (e : Error) : Prop := e.invalidChecksum = none

/-- The payload differs from the checksum in the header. -/
def Packet.Violates (sha256 : Bytes → Hash) (packet : Packet) : Prop :=
  shorthash sha256 packet.buffer ≠ packet.header.checksum

instance (sha256 : Bytes → Hash) (packet : Packet) : Decidable (packet.Violates sha256) :=
  inferInstanceAs (Decidable (_ ≠ _))

/-- The other ends of a connection are no errors of the checksum. -/
structure Interruptions.Ordinary (w : Interruptions) : Prop where
  reading : ∀ n, ∀ e ∈ w.reading n, e.Ordinary
  answering : ∀ n, ∀ e ∈ w.answering n, e.Ordinary

/-- The session ends with an error of the checksum, and the peer is banned. -/
def Banned (peer : AddressPortNetwork) (s : Backoff) (session : Session) : Prop :=
  session.error.invalidChecksum ≠ none ∧ 14 ≤ (s.crawlOnce peer session).failedTimes

variable {sha256 : Bytes → Hash} {getArena : Nat → Nat → Arena} {w : Interruptions} {duration : Duration}
  {stream : Bytes} {session : Session}

theorem readExact_ordinary {n : Nat} {e : Error} (fails : readExact n stream = .error e) : e.Ordinary := by
  unfold readExact at fails
  split at fails
  · cases fails
  · cases fails
    rfl

theorem readU32Le_ordinary {e : Error} (fails : readU32Le stream = .error e) : e.Ordinary := by
  unfold readU32Le at fails
  split at fails
  · cases fails
  · cases fails
    rfl

theorem bind_eq_error {α β : Type} {x : Except Error α} {f : α → Except Error β} {e : Error}
    (fails : x >>= f = .error e) : x = .error e ∨ ∃ a, f a = .error e := by
  cases x with
  | error e' =>
    cases fails
    exact Or.inl rfl
  | ok a => exact Or.inr ⟨a, fails⟩

theorem readHeader_ordinary {e : Error} (fails : readHeader stream = .error e) : e.Ordinary := by
  rcases bind_eq_error fails with first | ⟨magic, fails⟩
  · exact readU32Le_ordinary first
  rcases bind_eq_error fails with second | ⟨command, fails⟩
  · exact readExact_ordinary second
  rcases bind_eq_error fails with third | ⟨length, fails⟩
  · exact readU32Le_ordinary third
  rcases bind_eq_error fails with fourth | ⟨checksum, fails⟩
  · exact readExact_ordinary fourth
  dsimp only at fails
  split at fails
  · cases fails
    rfl
  · cases fails

/-- The error of a violation does not leave `read_packet`. -/
theorem readPacket_ordinary {arena : Nat → Arena} {e : Error} (fails : readPacket sha256 arena stream = .ok (.error e)) :
    e.Ordinary := by
  unfold readPacket at fails
  split at fails
  · next header =>
    cases fails
    exact readHeader_ordinary header
  · split at fails
    · next buffer =>
      cases fails
      exact readExact_ordinary buffer
    · obtain ⟨deserialized, _, result⟩ := Outcome.bind_eq_ok.mp fails
      cases result

/-- Everything that the reader task reads. -/
theorem readAndSendLoop_ordinary {fuel n : Nat} {e : Error}
    (sent : .error e ∈ readAndSendLoop sha256 getArena fuel n stream) : e.Ordinary := by
  induction fuel generalizing n stream with
  | zero => cases sent
  | succ fuel ih =>
    rw [readAndSendLoop] at sent
    split at sent
    · exact ih ((List.mem_cons.mp sent).resolve_left (by simp))
    · next e' fails =>
      cases List.mem_singleton.mp sent
      exact readPacket_ordinary fails
    · cases sent

theorem handlePacketDuringHandshaking_ordinary {packet : ReceivedPayload} {success : Bool} {remote : Option Version}
    {e : Error} (fails : handlePacketDuringHandshaking packet success remote = .error e) : e.Ordinary := by
  unfold handlePacketDuringHandshaking at fails
  split at fails
  · split at fails
    · cases fails
      rfl
    · cases fails
  · split at fails
    · cases fails
      rfl
    · cases fails
  · cases fails
  · cases fails

/-- A handshake fails with an ordinary error, or leaves only such errors to be read. -/
def EndsOrdinary (result : Outcome (Except Error (Version × Nat × List (Except Error Packet)))) : Prop :=
  match result with
  | .ok (.error e) => e.Ordinary
  | .ok (.ok (_, _, reads)) => ∀ e, .error e ∈ reads → e.Ordinary
  | _ => True

theorem handshakeLoop_ordinary (others : w.Ordinary) {reads : List (Except Error Packet)}
    (ordinary : ∀ e, .error e ∈ reads → e.Ordinary) (n : Nat) (remote : Option Version) (sent : List PayloadToSend) :
    EndsOrdinary (handshakeLoop w reads n remote sent).2 := by
  induction reads generalizing n remote sent with
  | nil =>
    cases before : w.reading n with
    | none => simp [handshakeLoop, before, EndsOrdinary, Error.Ordinary, Error.message]
    | some e => simpa [handshakeLoop, before, EndsOrdinary] using others.reading n e before
  | cons read reads ih =>
    have later : ∀ e, .error e ∈ reads → e.Ordinary := fun e member => ordinary e (List.mem_cons_of_mem _ member)
    unfold handshakeLoop
    split
    · next e before => exact others.reading n e before
    · exact ordinary _ List.mem_cons_self
    · next packet before =>
      dsimp only
      split
      · next e handled =>
        split at handled
        · exact handlePacketDuringHandshaking_ordinary handled
        · cases handled
      · next responses finished remote' handled =>
        split
        · next e after =>
          obtain ⟨_, _, after⟩ := Option.bind_eq_some_iff.mp after
          exact others.answering n e after
        · split
          · cases remote' with
            | none => trivial
            | some v => exact later
          · exact ih later (n + 1) remote' _

theorem receiveLoop_ordinary (others : w.Ordinary) {reads : List (Except Error Packet)}
    (ordinary : ∀ e, .error e ∈ reads → e.Ordinary) (n : Nat) (received : UInt32) :
    (receiveLoop w reads n received).2.Ordinary := by
  induction reads generalizing n received with
  | nil =>
    cases before : w.reading n with
    | none => simp [receiveLoop, before, Error.Ordinary, Error.message]
    | some e => simpa [receiveLoop, before] using others.reading n e before
  | cons read reads ih =>
    have rest := ih fun e member => ordinary e (List.mem_cons_of_mem _ member)
    cases before : w.reading n with
    | some e => simpa [receiveLoop, before] using others.reading n e before
    | none =>
      cases read with
      | error e => simpa [receiveLoop, before] using ordinary e List.mem_cons_self
      | ok packet =>
        cases after : w.answering n with
        | some e => simpa [receiveLoop, before, after] using others.answering n e after
        | none => simpa [receiveLoop, before, after] using rest (n + 1) (received + 1)

/-- No session ends with the error of a violation. -/
theorem sessionOf_ordinary (others : w.Ordinary)
    (ended : sessionOf w duration (readAndSendMessages sha256 getArena stream) = .ok session) :
    session.error.Ordinary := by
  have ordinary : ∀ e, .error e ∈ readAndSendMessages sha256 getArena stream → e.Ordinary := fun e sent =>
    readAndSendLoop_ordinary sent
  have handshaken := handshakeLoop_ordinary others ordinary 0 none []
  obtain ⟨result, shaken, ended⟩ := Outcome.bind_eq_ok.mp ended
  rw [handshake] at shaken
  rw [shaken] at handshaken
  cases result with
  | error e =>
    cases ended
    exact handshaken
  | ok rest =>
    obtain ⟨v, n, reads⟩ := rest
    cases ended
    exact receiveLoop_ordinary others handshaken n 0

/-- Whatever packets a stream has, its session does not ban the peer for a violation. -/
theorem violation_never_bans (peer : AddressPortNetwork) (s : Backoff) (others : w.Ordinary)
    (ended : sessionOf w duration (readAndSendMessages sha256 getArena stream) = .ok session) :
    ¬ Banned peer s session :=
  fun banned => banned.1 (sessionOf_ordinary others ended)

/-- SHA-256 on the empty string and on its digest. -/
def emptySha256 (bytes : Bytes) : Hash :=
  if bytes = [] then
    ⟨[227, 176, 196, 66, 152, 252, 28, 20, 154, 251, 244, 200, 153, 111, 185, 36,
      39, 174, 65, 228, 100, 155, 147, 76, 164, 149, 153, 27, 120, 82, 184, 85], rfl⟩
  else
    ⟨[93, 246, 224, 226, 118, 19, 89, 211, 10, 130, 117, 5, 142, 41, 159, 204,
      3, 129, 83, 69, 69, 245, 92, 244, 62, 65, 152, 63, 93, 76, 148, 86], rfl⟩

/-- A `verack` whose checksum is zero. -/
def badVerack : Bytes :=
  leBytes 4 0xD9B4BEF9 ++ verackCommand ++ leBytes 4 0 ++ leBytes 4 0

def badReads : List (Except Error Packet) :=
  readAndSendMessages emptySha256 (fun _ _ => ⟨4096, smallArenaSize, smallArenaSize_inBounds⟩) badVerack

def badSession : Session := ⟨.error (.message "unexpected end of file"), 1000000000⟩

theorem badReads_eq :
    badReads = [.ok ⟨⟨0xD9B4BEF9, ⟨verackCommand, rfl⟩, 0, 0⟩, [], none⟩, .error (.message "unexpected end of file")] := by
  rfl

theorem sessionOf_badReads : sessionOf undisturbed 1000000000 badReads = .ok badSession := by
  rw [badReads_eq]
  rfl

theorem violation_never_bans_verack :
    sessionOf undisturbed 1000000000 badReads = .ok badSession ∧ ¬ Banned refusingPeer .new badSession :=
  ⟨sessionOf_badReads, violation_never_bans refusingPeer .new ⟨by simp [undisturbed], by simp [undisturbed]⟩
    sessionOf_badReads⟩

/-- The violation is counted as one failed handshake. -/
theorem violation_bans_fails :
    (∃ packet, .ok packet ∈ badReads ∧ packet.Violates emptySha256) ∧
      sessionOf undisturbed 1000000000 badReads = .ok badSession ∧
      (Backoff.new.crawlOnce refusingPeer badSession).failedTimes = 1 ∧ ¬ Banned refusingPeer .new badSession := by
  refine ⟨⟨_, by rw [badReads_eq]; exact List.mem_cons_self, by decide⟩, sessionOf_badReads, rfl, fun banned => ?_⟩
  exact banned.1 rfl

end Bitlens

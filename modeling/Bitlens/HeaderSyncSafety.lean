import Bitlens.HeaderSync
import Bitlens.PacketStream
import Bitlens.TargetRange
import Bitlens.ValidChain

namespace Bitlens
open Lib

variable {p : Profile} {sha256 : Bytes → Hash}

/-- The request for the headers behind some known ones. -/
def askFrom (locator : List Hash) : PayloadToSend :=
  .getHeaders { version := 70016, blockLocator := locator, hashStop := emptyHash }

namespace Chain

variable {c : Chain}

theorem known_of_newHeader {header : BlockHeaderOwned} (checked : c.newHeader p header = .ok none) :
    c.Known header.hash := by
  by_contra unknown
  change ¬ (c.knownHeaders header.hash).isSome = true at unknown
  rw [newHeader, if_neg unknown] at checked
  obtain ⟨_, _, checked⟩ := Outcome.bind_eq_ok.mp checked
  obtain ⟨_, _, checked⟩ := Outcome.bind_eq_ok.mp checked
  obtain ⟨_, _, checked⟩ := Outcome.bind_eq_ok.mp checked
  obtain ⟨_, _, checked⟩ := Outcome.bind_eq_ok.mp checked
  obtain ⟨_, _, checked⟩ := Outcome.bind_eq_ok.mp checked
  cases checked

theorem WellFormed.blockLocatorLoop_known (wf : c.WellFormed) {fuel step : Nat} {current : BlockHeaderWithNumber}
    {locator result : List Hash} (holds : c.Holds current) (known : ∀ hash ∈ locator, c.Known hash)
    (returns : c.blockLocatorLoop p fuel current step locator = .ok result) :
    locator <+: result ∧ ∀ hash ∈ result, c.Known hash := by
  induction fuel generalizing current step locator with
  | zero => cases returns
  | succ fuel ih =>
    rw [Chain.blockLocatorLoop] at returns
    split at returns
    · obtain ⟨doubled, _, returns⟩ := Outcome.bind_eq_ok.mp returns
      dsimp only at returns
      obtain ⟨a, found, holdsA, _⟩ := wf.getAncestor holds
        (Nat.sub_le current.number (if doubled > current.number then current.number else doubled))
      rw [found, Outcome.ok_bind, Outcome.unwrap_some, Outcome.ok_bind] at returns
      obtain ⟨front, all⟩ := ih holdsA (List.forall_mem_append.mpr ⟨known, by simpa using holdsA.known⟩) returns
      exact ⟨(List.prefix_append _ _).trans front, all⟩
    · cases returns
      exact ⟨List.prefix_rfl, known⟩

/-- A locator names the top header first, and only known headers. -/
theorem WellFormed.buildGetHeaders_known (wf : c.WellFormed) {v : GetHeaders}
    (returns : c.buildGetHeaders p = .ok v) :
    .getHeaders v = askFrom v.blockLocator ∧ v.blockLocator.head? = some c.topHeader.header.hash ∧
      ∀ hash ∈ v.blockLocator, c.Known hash := by
  have top : ∀ hash ∈ [c.topHeader.header.hash], c.Known hash := by simpa using wf.top.known
  unfold buildGetHeaders at returns
  split at returns
  · cases returns
    exact ⟨rfl, rfl, top⟩
  · obtain ⟨locator, looped, returns⟩ := Outcome.bind_eq_ok.mp returns
    cases returns
    obtain ⟨⟨rest, whole⟩, known⟩ := wf.blockLocatorLoop_known wf.top top looped
    exact ⟨rfl, by rw [← whole]; rfl, known⟩

end Chain

/-- An accepted header in header sync is stored, and is the new top unless it has less work. -/
def Chainman.adopt (w : Chainman) (new : BlockHeaderWithNumber) : Chainman :=
  if new.totalWork < w.chain.topHeader.totalWork then w.learn new else (w.learn new).setTop new

theorem Chainman.adopt_knownHeaders (w : Chainman) (new : BlockHeaderWithNumber) :
    (w.adopt new).chain.knownHeaders = (w.learn new).chain.knownHeaders := by
  unfold adopt
  split
  · rfl
  · rfl

theorem validateAndApplyHeaderInner_of_accepted {w : Chainman} {header : BlockHeaderOwned} {new : BlockHeaderWithNumber}
    (accepted : w.chain.newHeader p header = .ok (some new)) :
    w.validateAndApplyHeaderInner p header true = (w.adopt new, .ok none) := by
  rw [Chainman.validateAndApplyHeaderInner, accepted, Chainman.adopt]
  dsimp only
  split
  · rfl
  · rfl

/-- After a call without an error the header is known. -/
theorem known_of_validateAndApplyHeaderInner {w w' : Chainman} {header : BlockHeaderOwned}
    {found : Option HeaderApplicationResult} (applied : w.validateAndApplyHeaderInner p header true = (w', .ok found)) :
    w'.chain.Known header.hash := by
  cases checked : w.chain.newHeader p header with
  | err =>
    rw [Chainman.validateAndApplyHeaderInner_of_err checked] at applied
    cases applied
  | fault =>
    rw [Chainman.validateAndApplyHeaderInner_of_fault checked] at applied
    cases applied
  | ok result =>
    cases result with
    | none =>
      rw [Chainman.validateAndApplyHeaderInner_of_none checked] at applied
      cases applied
      exact Chain.known_of_newHeader checked
    | some new =>
      rw [validateAndApplyHeaderInner_of_accepted checked] at applied
      cases applied
      rw [Chain.Known, Chainman.adopt_knownHeaders, ← (Chainman.extends_of_newHeader checked).2,
        Chainman.learn_known_self]
      rfl

theorem HeaderCall.keeps_record {w w' : Chainman} {call : BlockHeaderOwned × Bool} (step : HeaderCall p w call w')
    {hash : Hash} {b : BlockHeaderWithNumber} (stored : w.chain.knownHeaders hash = some b) :
    w'.chain.knownHeaders hash = some b := by
  rcases step.cases with ⟨_, same⟩ | ⟨new, accepted, ⟨_, same⟩ | ⟨_, same⟩⟩
  · rw [same]
    exact stored
  · rw [same]
    exact (Chainman.extends_of_newHeader accepted).1.keeps stored
  · rw [same]
    exact (Chainman.extends_of_newHeader accepted).1.keeps stored

/-- In header sync a call that panics leaves the chain as it was. -/
theorem validateAndApplyHeaders_calls (w : Chainman) (page : List BlockHeaderOwned) :
    ∃ calls, (∀ call ∈ calls, call.1 ∈ page) ∧ Run (HeaderCall p) w calls (w.validateAndApplyHeaders p page).1 := by
  induction page generalizing w with
  | nil => exact ⟨[], by simp, .nil⟩
  | cons header page ih =>
    rw [Chainman.validateAndApplyHeaders]
    cases inner : w.validateAndApplyHeaderInner p header true with
    | mk next outcome =>
      cases outcome with
      | ok found =>
        obtain ⟨calls, inside, rest⟩ := ih next
        refine ⟨(header, true) :: calls, ?_, .cons ⟨_, inner, by simp⟩ rest⟩
        intro call member
        rcases List.mem_cons.mp member with same | later
        · rw [same]
          exact List.mem_cons_self
        · exact List.mem_cons_of_mem _ (inside call later)
      | err => exact ⟨[(header, true)], by simp, .single ⟨_, inner, by simp⟩⟩
      | fault =>
        have unchanged : next = w := by
          unfold Chainman.validateAndApplyHeaderInner at inner
          split at inner
          · split at inner
            · cases inner
            · cases inner
          · cases inner
          · cases inner
          · cases inner
            rfl
        rw [unchanged]
        exact ⟨[], by simp, .nil⟩

theorem validateAndApplyHeaders_keeps {w : Chainman} {page : List BlockHeaderOwned} {hash : Hash}
    {b : BlockHeaderWithNumber} (stored : w.chain.knownHeaders hash = some b) :
    (w.validateAndApplyHeaders p page).1.chain.knownHeaders hash = some b := by
  obtain ⟨calls, _, run⟩ := validateAndApplyHeaders_calls (p := p) w page
  exact run.invariant (P := fun w => w.chain.knownHeaders hash = some b) stored
    fun _ _ _ kept step => step.keeps_record kept

/-- When a whole page is applied, its headers are known. -/
theorem validateAndApplyHeaders_known {w w' : Chainman} {page : List BlockHeaderOwned} {done : Unit}
    (applied : w.validateAndApplyHeaders p page = (w', .ok done)) : ∀ header ∈ page, w'.chain.Known header.hash := by
  induction page generalizing w with
  | nil => simp
  | cons header page ih =>
    rw [Chainman.validateAndApplyHeaders] at applied
    cases inner : w.validateAndApplyHeaderInner p header true with
    | mk next outcome =>
      rw [inner] at applied
      cases outcome with
      | err => cases applied
      | fault => cases applied
      | ok found =>
        refine List.forall_mem_cons.mpr ⟨?_, ih applied⟩
        obtain ⟨b, stored⟩ := Option.isSome_iff_exists.mp (known_of_validateAndApplyHeaderInner inner)
        have kept := @validateAndApplyHeaders_keeps p _ page _ _ stored
        dsimp only at applied
        rw [applied] at kept
        rw [Chain.Known, kept]
        rfl

namespace HeaderSync

variable {s t : HeaderSync} {event : HeaderSyncEvent}

/-- What a step does to the chain and to the requests. -/
inductive Moves (p : Profile) (sha256 : Bytes → Hash) (s t : HeaderSync) : HeaderSyncEvent → Prop
  | waits {e : HeaderSyncEvent} : t.chainman = s.chainman → t.requests = s.requests → t.point ≠ .done →
      Moves p sha256 s t e
  | asks {now v} : s.chainman.chain.buildGetHeaders p = .ok v → t.chainman = s.chainman →
      t.requests = s.requests ++ [.getHeaders v] → t.point ≠ .done → Moves p sha256 s t (.connect now true)
  | applies {now getArena stream written headers} : (∀ header ∈ headers, header.Mined sha256) →
      t.chainman = (s.chainman.validateAndApplyHeaders p headers).1 → t.requests = s.requests → t.point ≠ .done →
        Moves p sha256 s t (.receive now getArena stream written)
  | goesOn {now getArena stream headers last done} : (∀ header ∈ headers, header.Mined sha256) →
      last ∈ headers → s.chainman.validateAndApplyHeaders p headers = (t.chainman, .ok done) →
        t.requests = s.requests ++ [askFrom [last.hash]] → t.point ≠ .done →
          Moves p sha256 s t (.receive now getArena stream true)
  | ends {now} : s.chainman.chain.needIhd now = false → t.chainman = s.chainman → t.requests = s.requests →
      Moves p sha256 s t (.finish now)

theorem moves_of_handled {now : Nat} {getArena : Nat → Arena} {stream rest : Bytes} {packet : Packet}
    {payload : ReceivedPayload} (written : Bool)
    (read : readPacket sha256 getArena stream = .ok (.ok (packet, rest))) (sent : packet.payload = some payload) :
    Moves p sha256 s (s.respond written (s.chainman.handlePacketDuringHeadersync p now payload))
      (.receive now getArena stream written) := by
  obtain ⟨_, arena, checked⟩ := readPacket_checked read sent
  unfold Chainman.handlePacketDuringHeadersync
  split
  · next headers =>
    cases atLast : headers.getLast? with
    | none => exact .waits (by simp [respond]) (by simp [respond]) (by simp [respond])
    | some last =>
      dsimp only
      split
      · next w done applied =>
        split
        · cases written with
          | true =>
            exact .goesOn checked (List.mem_of_getLast? atLast) applied rfl (by simp [respond])
          | false => exact .applies checked (by rw [applied]; rfl) rfl (by simp [respond])
        · exact .applies checked (by rw [applied]; simp [respond]) (by simp [respond]) (by simp [respond])
      · next w applied =>
        exact .applies checked (by rw [applied]; simp [respond]) (by simp [respond]) (by simp [respond])
      · next w applied => exact .applies checked (by rw [applied]; rfl) rfl (by simp [respond])
  · exact .waits (by simp [respond]) (by simp [respond]) (by simp [respond])

theorem moves_of_step (step : s.Step p sha256 event t) : Moves p sha256 s t event := by
  unfold Step next at step
  cases event with
  | connect now written =>
    dsimp only at step
    split at step
    · next here =>
      split at step
      · next v built =>
        cases written with
        | true =>
          cases step
          exact .asks built rfl rfl (by simp)
        | false =>
          cases step
          exact .waits rfl rfl (by simp [here.1])
      · cases step
        exact .waits rfl rfl (by simp)
    · cases step
  | receive now getArena stream written =>
    dsimp only at step
    split at step
    · next here =>
      split at step
      · next packet rest read =>
        split at step
        · next payload sent =>
          cases step
          exact moves_of_handled written read sent
        · cases step
          exact .waits rfl rfl (by simp [here])
      · cases step
        exact .waits rfl rfl (by simp)
    · cases step
  | timeout =>
    dsimp only at step
    split at step
    · cases step
      exact .waits rfl rfl (by simp)
    · cases step
  | finish now =>
    dsimp only at step
    split at step
    · next here =>
      cases step
      exact .ends (by simpa using here.2) rfl rfl
    · cases step

/-- A valid tree that has grown from `start` by mined headers. -/
structure Extended (p : Profile) (sha256 : Bytes → Hash) (start c : Chain) : Prop where
  valid : c.Valid p
  kept : ∀ hash b, start.knownHeaders hash = some b → c.knownHeaders hash = some b
  mined : ∀ hash b, c.knownHeaders hash = some b → start.knownHeaders hash = some b ∨ b.header.Mined sha256

variable {start : Chain} {w w' : Chainman}

theorem Extended.call {call : BlockHeaderOwned × Bool} (extended : Extended p sha256 start w.chain)
    (mined : call.1.Mined sha256) (step : HeaderCall p w call w') : Extended p sha256 start w'.chain := by
  refine ⟨step.valid extended.valid, fun hash b stored => step.keeps_record (extended.kept hash b stored), ?_⟩
  intro hash b stored
  rcases step.cases with ⟨_, same⟩ | ⟨new, accepted, outcome⟩
  · exact extended.mined hash b (same ▸ stored)
  · have learned : (w.learn new).chain.knownHeaders hash = some b := by
      rcases outcome with ⟨_, same⟩ | ⟨_, same⟩
      · exact same ▸ stored
      · rw [same] at stored
        exact stored
    rcases Chainman.learn_known_cases learned with ⟨_, record⟩ | before
    · rw [record, (Chainman.extends_of_newHeader accepted).2]
      exact Or.inr mined
    · exact extended.mined hash b before

theorem Extended.page {page : List BlockHeaderOwned} (extended : Extended p sha256 start w.chain)
    (mined : ∀ header ∈ page, header.Mined sha256) :
    Extended p sha256 start (w.validateAndApplyHeaders p page).1.chain := by
  obtain ⟨calls, inside, run⟩ := validateAndApplyHeaders_calls (p := p) w page
  exact run.with_labels.invariant (P := fun w => Extended p sha256 start w.chain) extended
    fun _ call _ before ⟨member, step⟩ => before.call (mined _ (inside call member)) step

/-- The top of an extended tree has at least the work of the old top. -/
theorem Extended.rises (extended : Extended p sha256 start w.chain) (valid : start.Valid p) :
    start.topHeader.totalWork ≤ w.chain.topHeader.totalWork := by
  obtain ⟨b, stored, _⟩ := valid.grown.wellFormed.top
  rw [← valid.topWork b stored]
  exact extended.valid.mostWork _ b (extended.kept _ b stored)

/-- What holds in every run of `sync_headers`, whatever the peers send. -/
structure Safe (p : Profile) (sha256 : Bytes → Hash) (start : Chain) (events : List HeaderSyncEvent) (s : HeaderSync) :
    Prop where
  extended : Extended p sha256 start s.chainman.chain
  requests : ∀ request ∈ s.requests, ∃ locator, request = askFrom locator ∧ locator ≠ [] ∧
    ∀ hash ∈ locator, s.chainman.chain.Known hash
  done : s.point = .done → ∃ now, .finish now ∈ events ∧ s.chainman.chain.needIhd now = false

theorem known_of_record {c d : Chain} {hash : Hash}
    (keeps : ∀ b, c.knownHeaders hash = some b → d.knownHeaders hash = some b) (known : c.Known hash) :
    d.Known hash := by
  obtain ⟨b, stored⟩ := Option.isSome_iff_exists.mp known
  rw [Chain.Known, keeps b stored]
  rfl

theorem Extended.step (extended : Extended p sha256 start s.chainman.chain) (step : s.Step p sha256 event t) :
    Extended p sha256 start t.chainman.chain := by
  cases moves_of_step step with
  | waits chain _ _ => exact chain ▸ extended
  | asks _ chain _ _ => exact chain ▸ extended
  | applies mined chain _ _ => exact chain ▸ extended.page mined
  | goesOn mined _ applied _ _ =>
    have chain : t.chainman = (s.chainman.validateAndApplyHeaders p _).1 := (congrArg Prod.fst applied).symm
    exact chain ▸ extended.page mined
  | ends _ chain _ => exact chain ▸ extended

/-- The step lemma. -/
theorem Safe.step {events : List HeaderSyncEvent} (safe : Safe p sha256 start events s)
    (step : s.Step p sha256 event t) : Safe p sha256 start (events ++ [event]) t := by
  have extended := safe.extended.step step
  cases moves_of_step step with
  | waits chain requests notDone =>
    refine ⟨extended, ?_, fun done => absurd done notDone⟩
    rw [requests, chain]
    exact safe.requests
  | asks built chain requests notDone =>
    refine ⟨extended, ?_, fun done => absurd done notDone⟩
    rw [requests, chain]
    obtain ⟨shape, head, known⟩ := safe.extended.valid.grown.wellFormed.buildGetHeaders_known built
    refine List.forall_mem_append.mpr ⟨safe.requests, ?_⟩
    intro request member
    rw [List.mem_singleton.mp member]
    refine ⟨_, shape, fun empty => ?_, known⟩
    rw [empty] at head
    cases head
  | applies mined chain requests notDone =>
    refine ⟨extended, ?_, fun done => absurd done notDone⟩
    rw [requests, chain]
    intro request member
    obtain ⟨locator, shape, some_, known⟩ := safe.requests request member
    exact ⟨locator, shape, some_, fun hash inside =>
      known_of_record (fun _ => validateAndApplyHeaders_keeps) (known hash inside)⟩
  | goesOn mined inside applied requests notDone =>
    have chain : t.chainman = (s.chainman.validateAndApplyHeaders p _).1 := (congrArg Prod.fst applied).symm
    refine ⟨extended, ?_, fun done => absurd done notDone⟩
    rw [requests]
    refine List.forall_mem_append.mpr ⟨fun request member => ?_, fun request member => ?_⟩
    · obtain ⟨locator, shape, some_, known⟩ := safe.requests request member
      refine ⟨locator, shape, some_, fun hash inside => ?_⟩
      rw [chain]
      exact known_of_record (fun _ => validateAndApplyHeaders_keeps) (known hash inside)
    · rw [List.mem_singleton.mp member]
      exact ⟨_, rfl, by simp, by simpa using validateAndApplyHeaders_known applied _ inside⟩
  | ends recent chain requests =>
    refine ⟨extended, ?_, fun _ => ⟨_, by simp, chain ▸ recent⟩⟩
    rw [requests, chain]
    exact safe.requests

theorem Safe.init (valid : w.chain.Valid p) : Safe p sha256 w.chain [] (HeaderSync.start w) :=
  ⟨⟨valid, fun _ _ stored => stored, fun _ _ stored => Or.inl stored⟩, by simp [HeaderSync.start],
    by simp [HeaderSync.start]⟩

/-- Whatever the peers of a header sync send, the tree stays valid. From any state to any later one it keeps its
records, each new header is mined, and the top does not lose work. Each request names known headers only, and the sync
ends only with a top header of the last day. -/
theorem syncs_safely {events later : List HeaderSyncEvent} (valid : w.chain.Valid p)
    (run : Run (Step p sha256) (HeaderSync.start w) events s) (further : Run (Step p sha256) s later t) :
    t.chainman.chain.Valid p ∧
      (∀ hash b, s.chainman.chain.knownHeaders hash = some b → t.chainman.chain.knownHeaders hash = some b) ∧
      (∀ hash b, t.chainman.chain.knownHeaders hash = some b →
        s.chainman.chain.knownHeaders hash = some b ∨ b.header.Mined sha256) ∧
      s.chainman.chain.topHeader.totalWork ≤ t.chainman.chain.topHeader.totalWork ∧
      (∀ request ∈ t.requests, ∃ locator, request = askFrom locator ∧ locator ≠ [] ∧
        ∀ hash ∈ locator, t.chainman.chain.Known hash) ∧
      (t.point = .done → ∃ now, .finish now ∈ events ++ later ∧ t.chainman.chain.needIhd now = false) := by
  have before : Safe p sha256 w.chain events s :=
    run.history (P := Safe p sha256 w.chain) (.init valid) fun _ _ _ _ => Safe.step
  have safe : Safe p sha256 w.chain (events ++ later) t :=
    (run.append further).history (P := Safe p sha256 w.chain) (.init valid) fun _ _ _ _ => Safe.step
  have same : Extended p sha256 s.chainman.chain s.chainman.chain :=
    ⟨before.extended.valid, fun _ _ stored => stored, fun _ _ stored => Or.inl stored⟩
  have extended : Extended p sha256 s.chainman.chain t.chainman.chain :=
    further.invariant (P := fun u => Extended p sha256 s.chainman.chain u.chainman.chain) same
      fun _ _ _ => Extended.step
  exact ⟨safe.extended.valid, extended.kept, extended.mined, extended.rises before.extended.valid, safe.requests,
    safe.done⟩

/-- A peer that sends one mined header on genesis and is silent then. -/
def samplePage : List HeaderSyncEvent :=
  let page := writePacket Sha256.sha256 (.headers [minedHeader])
  [.connect 2000000000 true, .receive 2000000000 (fun _ => smallArena) page true, .timeout]

def beforePage : HeaderSync := after (next .dev Sha256.sha256) (HeaderSync.start startChainman) (samplePage.take 1)

def afterPage : HeaderSync := after (next .dev Sha256.sha256) beforePage (samplePage.drop 1)

theorem syncs_safely_page : afterPage.chainman.chain.knownHeaders minedHeader.hash ≠ none ∧
    (∀ hash b, afterPage.chainman.chain.knownHeaders hash = some b →
      beforePage.chainman.chain.knownHeaders hash = some b ∨ b.header.Mined Sha256.sha256) ∧
    beforePage.chainman.chain.topHeader.totalWork ≤ afterPage.chainman.chain.topHeader.totalWork := by
  have run : Run (Step .dev Sha256.sha256) (HeaderSync.start startChainman) (samplePage.take 1) beforePage :=
    Run.of_after (fun _ _ _ taken => taken) (by decide +kernel)
  have further : Run (Step .dev Sha256.sha256) beforePage (samplePage.drop 1) afterPage :=
    Run.of_after (fun _ _ _ taken => taken) (by decide +kernel)
  obtain ⟨_, _, mined, rises, _⟩ := syncs_safely Chain.default_valid run further
  exact ⟨by decide +kernel, mined, rises⟩

end HeaderSync

end Bitlens

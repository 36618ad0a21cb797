import Bitlens.HeaderAnswers
import Bitlens.HeaderPages
import Bitlens.HeaderSyncSafety

namespace Bitlens
open Lib

/-- The chain of a peer: valid, indexed, and with mined headers, none of which hashes to zero. -/
structure Chain.Served (p : Profile) (sha256 : Bytes → Hash) (d : Chain) : Prop where
  valid : d.Valid p
  indexed : d.Indexed
  mined : ∀ hash b, d.knownHeaders hash = some b → b.header.Mined sha256
  nonzero : ¬ d.Known emptyHash

/-- The valid chain `c` knows the main chain of `d` up to the height `h`. -/
structure Chain.Caught (p : Profile) (d : Chain) (h : Nat) (c : Chain) : Prop where
  valid : c.Valid p
  compatible : c.Compatible d
  knows : ∀ n ≤ h, ∀ hash, d.numberToHash n = some hash → c.Known hash

variable {p : Profile} {sha256 : Bytes → Hash} {d : Chain} {w : Chainman} {h : Nat}

namespace Chain

theorem Served.wellFormed (served : d.Served p sha256) : d.WellFormed :=
  served.valid.grown.wellFormed

/-- The parent of a main-chain block is the main-chain block below it. -/
theorem Indexed.parent_at (indexed : d.Indexed) (wf : d.WellFormed) {n : Nat} {b : BlockHeaderWithNumber}
    (stored : d.knownHeaders b.header.hash = some b) (atNumber : d.numberToHash (n + 1) = some b.header.hash) :
    d.numberToHash n = some b.header.parent := by
  obtain ⟨onMain, level⟩ := (indexed.numbers _ _).mp atNumber
  rw [heightOf_of_known stored] at level
  obtain ⟨q, atParent, step⟩ := wf.parents _ b stored (by omega)
  have edge : d.parentOf b.header.hash = some b.header.parent := by
    rw [parentOf_of_known stored, if_neg (by omega)]
  refine (indexed.numbers _ _).mpr ⟨onMain.trans (.of_parent edge), ?_⟩
  rw [heightOf_of_known atParent]
  omega

/-- A main-chain header of the peer is accepted when the one below it is known. -/
theorem Caught.accepts {c : Chain} (caught : Caught p d h c) (served : d.Served p sha256) {b : BlockHeaderWithNumber}
    (stored : d.knownHeaders b.header.hash = some b) (atNumber : d.numberToHash (h + 1) = some b.header.hash)
    (unknown : c.knownHeaders b.header.hash = none) :
    ∃ new, c.newHeader p b.header = .ok (some new) ∧ new.header = b.header := by
  have below := served.indexed.parent_at served.wellFormed stored atNumber
  obtain ⟨q, atParent⟩ := Option.isSome_iff_exists.mp (caught.knows h (Nat.le_refl h) _ below)
  have level : b.number = h + 1 := by
    rw [← heightOf_of_known stored]
    exact ((served.indexed.numbers _ _).mp atNumber).2
  obtain ⟨q', work, atParent', required, ofBits, small, _, _⟩ := served.valid.follows _ b stored (by omega)
  obtain ⟨_, total⟩ := caught.valid.agree served.valid caught.compatible atParent atParent'
  have same := caught.valid.getNextBitsRequired_eq served.valid caught.compatible atParent atParent'
  exact ⟨_, newHeader_eq_ok_some.mpr ⟨unknown, q, work, atParent, same.trans required, ofBits, by omega, rfl⟩, rfl⟩

theorem Caught.known_next {c : Chain} (caught : Caught p d h c) {hash : Hash}
    (atNumber : d.numberToHash (h + 1) = some hash) (known : c.Known hash) : Caught p d (h + 1) c := by
  refine ⟨caught.valid, caught.compatible, fun n below other found => ?_⟩
  rcases Nat.lt_or_eq_of_le below with less | same
  · exact caught.knows n (Nat.le_of_lt_succ less) other found
  · rw [same] at found
    exact Option.some.inj (atNumber.symm.trans found) ▸ known

theorem Served.main_known (served : d.Served p sha256) {n : Nat} {hash : Hash}
    (atNumber : d.numberToHash n = some hash) :
    ∃ b, d.knownHeaders b.header.hash = some b ∧ b.header.hash = hash ∧ b.number = n := by
  obtain ⟨onMain, level⟩ := (served.indexed.numbers _ _).mp atNumber
  obtain ⟨b, stored⟩ := Option.isSome_iff_exists.mp (served.wellFormed.known_of_onMain onMain)
  have name := served.wellFormed.keyed _ _ stored
  exact ⟨b, name.symm ▸ stored, name, (heightOf_of_known stored).symm.trans level⟩

/-- Who knows a block of the peer's main chain knows that chain up to it. -/
theorem Served.known_below (served : d.Served p sha256) {c : Chain} (valid : c.Valid p) (compatible : c.Compatible d)
    {hash : Hash} (atNumber : d.numberToHash h = some hash) (known : c.Known hash) : Caught p d h c := by
  refine ⟨valid, compatible, ?_⟩
  induction h generalizing hash with
  | zero =>
    intro n below other found
    rw [Nat.le_zero.mp below, atNumber] at found
    exact Option.some.inj found ▸ known
  | succ h ih =>
    obtain ⟨b, stored, name, level⟩ := served.main_known atNumber
    rw [← name] at atNumber known
    obtain ⟨b', stored'⟩ := Option.isSome_iff_exists.mp known
    have same := compatible _ _ _ stored' stored
    obtain ⟨levels, _⟩ := valid.agree served.valid compatible stored' stored
    obtain ⟨q, _, atParent, _⟩ := valid.follows _ b' stored' (by omega)
    rw [parent_eq same] at atParent
    have lower := ih (served.indexed.parent_at served.wellFormed stored atNumber) (Option.isSome_of_eq_some atParent)
    intro n below other found
    rcases Nat.lt_or_eq_of_le below with less | top
    · exact lower n (Nat.le_of_lt_succ less) other found
    · rw [top, atNumber] at found
      exact Option.some.inj found ▸ known

/-- The peer finds a block of the requester's locator on its main chain. -/
theorem Served.matches (served : d.Served p sha256) {c : Chain} (valid : c.Valid p) (compatible : c.Compatible d)
    {v : GetHeaders} (rooted : genesisHeader.hash ∈ v.blockLocator) (known : ∀ hash ∈ v.blockLocator, c.Known hash) :
    ∃ matched, (v.blockLocator.find? fun hash => hash ∈ d.mostWorkChain) = some matched ∧
      Caught p d (d.heightOf matched) c := by
  obtain ⟨b, atBottom, stored, bottom⟩ := served.indexed.main_at served.wellFormed (Nat.zero_le _)
  have genesis := (served.valid.number_eq_zero stored).mp bottom
  have present : (v.blockLocator.find? fun hash => hash ∈ d.mostWorkChain).isSome := by
    refine List.find?_isSome.mpr ⟨_, rooted, ?_⟩
    rw [← genesis]
    simpa using (served.indexed.members _).mpr ((served.indexed.numbers _ _).mp atBottom).1
  obtain ⟨matched, found⟩ := Option.isSome_iff_exists.mp present
  have onMain := (served.indexed.members _).mp (by simpa using List.find?_some found)
  have atNumber := (served.indexed.numbers _ _).mpr ⟨onMain, rfl⟩
  exact ⟨matched, found, served.known_below valid compatible atNumber (known _ (List.mem_of_find?_eq_some found))⟩

/-- The headers that a peer with the chain `d` sends on a request from `locator` by the rule of the protocol, which
is not that of `respond_to_getheaders`: those above the first block of its main chain, its top included. -/
def answerTo (d : Chain) (locator : List Hash) : List BlockHeaderOwned :=
  (d.expectedHeaders locator emptyHash).getD []

theorem throughStop_of_absent {blockStop : Hash} {headers : List BlockHeaderOwned}
    (absent : ∀ header ∈ headers, header.hash ≠ blockStop) : throughStop blockStop headers = headers := by
  induction headers with
  | nil => rfl
  | cons header headers ih =>
    obtain ⟨first, rest⟩ := List.forall_mem_cons.mp absent
    rw [throughStop, if_neg first, ih rest]

theorem Indexed.length_mainHeaders (indexed : d.Indexed) (wf : d.WellFormed) {number count : Nat}
    (below : number + count ≤ d.topHeader.number + 1) : (d.mainHeaders number count).length = count := by
  induction count generalizing number with
  | zero => rfl
  | succ count ih =>
    obtain ⟨b, _, _, _, split⟩ := indexed.mainHeaders_succ wf count (by omega : number ≤ _)
    rw [split, List.length_cons, ih (by omega)]

/-- A page ends with the main-chain block at its upper end. -/
theorem Indexed.getLast_mainHeaders (indexed : d.Indexed) (wf : d.WellFormed) {number count : Nat}
    (below : number + count ≤ d.topHeader.number) :
    ∃ b : BlockHeaderWithNumber, (d.mainHeaders number (count + 1)).getLast? = some b.header ∧
      b.header.hash ∈ d.mostWorkChain ∧ d.heightOf b.header.hash = number + count := by
  obtain ⟨b, atEnd, stored, onMain, level⟩ :=
    indexed.mainHeaders_get wf (show number + (count + 1) ≤ _ by omega) (Nat.lt_succ_self count)
  refine ⟨b, ?_, (indexed.members _).mpr onMain, (heightOf_of_known stored).trans level⟩
  rw [List.getLast?_eq_getElem?, indexed.length_mainHeaders wf (by omega)]
  exact atEnd

theorem stored_of_mem_mainHeaders (wf : d.WellFormed) {number count : Nat} {header : BlockHeaderOwned}
    (member : header ∈ d.mainHeaders number count) : ∃ b, d.knownHeaders header.hash = some b ∧ b.header = header := by
  obtain ⟨n, _, found⟩ := List.mem_filterMap.mp member
  obtain ⟨b, stored, same⟩ := Option.map_eq_some_iff.mp found
  obtain ⟨hash, _, stored⟩ := Option.bind_eq_some_iff.mp stored
  rw [← same, wf.keyed _ _ stored]
  exact ⟨b, stored, rfl⟩

/-- The peer sends what is above the matched block, up to its top and at most 2000 headers. -/
theorem Served.answerTo_eq (served : d.Served p sha256) {locator : List Hash} {matched : Hash}
    (found : (locator.find? fun hash => hash ∈ d.mostWorkChain) = some matched) :
    d.answerTo locator =
      d.mainHeaders (d.heightOf matched + 1) (min (d.topHeader.number - d.heightOf matched) 2000) := by
  rw [answerTo, expectedHeaders, found]
  dsimp only
  by_cases top : matched = d.topHeader.header.hash
  · rw [if_pos top, top, served.wellFormed.top.heightOf, Nat.sub_self]
    rfl
  · rw [if_neg top, throughStop_of_absent]
    · rfl
    · intro header member zero
      obtain ⟨b, stored, _⟩ := stored_of_mem_mainHeaders served.wellFormed member
      rw [zero] at stored
      exact served.nonzero (Option.isSome_of_eq_some stored)

theorem Compatible.learn {new : BlockHeaderWithNumber} (compatible : w.chain.Compatible d)
    (same : ∀ b, d.knownHeaders new.header.hash = some b → new.header.columns = b.header.columns) :
    (w.learn new).chain.Compatible d := by
  intro hash b b' stored stored'
  rcases Chainman.learn_known_cases stored with ⟨atNew, record⟩ | before
  · rw [atNew] at stored'
    rw [record]
    exact same b' stored'
  · exact compatible hash b b' before stored'

end Chain

/-- The step lemma of a page. -/
theorem Chain.Caught.header (caught : Caught p d h w.chain) (served : d.Served p sha256) {n : Nat} (near : n ≤ h + 1)
    {b : BlockHeaderWithNumber} (stored : d.knownHeaders b.header.hash = some b)
    (atNumber : d.numberToHash n = some b.header.hash) :
    ∃ w', w.validateAndApplyHeaderInner p b.header true = (w', .ok none) ∧ Caught p d (max h n) w'.chain := by
  by_cases known : w.chain.knownHeaders b.header.hash ≠ none
  · refine ⟨w, Chainman.validateAndApplyHeaderInner_of_none (Chain.newHeader_of_known known) true, ?_⟩
    rcases Nat.lt_or_eq_of_le near with less | same
    · rw [max_eq_left (Nat.le_of_lt_succ less)]
      exact caught
    · rw [same, max_eq_right (Nat.le_succ h)]
      exact caught.known_next (same ▸ atNumber) (Option.isSome_iff_ne_none.mpr known)
  · have unknown := not_not.mp known
    rcases Nat.lt_or_eq_of_le near with less | same
    · have known := caught.knows n (Nat.le_of_lt_succ less) _ atNumber
      rw [Chain.Known, unknown] at known
      cases known
    · subst same
      obtain ⟨new, accepted, header⟩ := caught.accepts served stored atNumber unknown
      have applied := validateAndApplyHeaderInner_of_accepted accepted
      have step : HeaderCall p w (b.header, true) (w.adopt new) := ⟨_, applied, by simp⟩
      refine ⟨w.adopt new, applied, ?_⟩
      rw [max_eq_right (Nat.le_succ h)]
      have kept : Caught p d h (w.adopt new).chain := by
        refine ⟨step.valid caught.valid, ?_, fun n below hash found => ?_⟩
        · have learned : (w.learn new).chain.Compatible d := by
            refine caught.compatible.learn fun b' stored' => ?_
            rw [header] at stored' ⊢
            cases stored.symm.trans stored'
            rfl
          intro hash b' b'' stored'
          rw [Chainman.adopt_knownHeaders] at stored'
          exact learned hash b' b'' stored'
        · exact HeaderSync.known_of_record (fun _ => step.keeps_record) (caught.knows n below hash found)
      exact kept.known_next atNumber (known_of_validateAndApplyHeaderInner applied)

/-- A page of the peer's main chain is applied as a whole. -/
theorem Chain.Caught.page (caught : Caught p d h w.chain) (served : d.Served p sha256) {number count : Nat}
    (near : number ≤ h + 1) (below : number + count ≤ d.topHeader.number + 1) :
    ∃ w', w.validateAndApplyHeaders p (d.mainHeaders number count) = (w', .ok ()) ∧
      Caught p d (max h (number + count - 1)) w'.chain := by
  induction count generalizing w h number with
  | zero =>
    refine ⟨w, rfl, ?_⟩
    rw [max_eq_left (by omega)]
    exact caught
  | succ count ih =>
    obtain ⟨b, atNumber, stored, _, split⟩ :=
      served.indexed.mainHeaders_succ served.wellFormed count (by omega : number ≤ d.topHeader.number)
    obtain ⟨next, applied, further⟩ := caught.header served near stored atNumber
    obtain ⟨w', rest, whole⟩ := ih further (by omega : number + 1 ≤ max h number + 1) (by omega)
    refine ⟨w', ?_, ?_⟩
    · rw [split, Chainman.validateAndApplyHeaders, applied]
      exact rest
    · have level : max (max h number) (number + 1 + count - 1) = max h (number + (count + 1) - 1) := by omega
      rwa [level] at whole

/-! A connection to a peer that serves the chain `d`. -/

namespace HeaderSync

variable {s t : HeaderSync} {event : HeaderSyncEvent} {now : Nat} {getArena : Nat → Arena}

/-- The event is the answer of the peer to the last request, read into an arena that is
picked for it; writes to the peer succeed. -/
def AnsweredBy (sha256 : Bytes → Hash) (d : Chain) (s : HeaderSync) : HeaderSyncEvent → Prop
  | .receive _ getArena stream written => written = true ∧ (∀ length, (getArena length).capacity = arenaSize length) ∧
      ∃ locator rest, s.requests.getLast? = some (askFrom locator) ∧
        stream = writePacket sha256 (.headers (d.answerTo locator)) ++ rest
  | _ => False

/-- The last request begins at the height `h` of the peer's main chain, which is known up to there. -/
structure Asked (p : Profile) (d : Chain) (h : Nat) (s : HeaderSync) : Prop where
  reading : s.point = .reading
  caught : Chain.Caught p d h s.chainman.chain
  request : ∃ locator matched, s.requests.getLast? = some (askFrom locator) ∧
    (locator.find? fun hash => hash ∈ d.mostWorkChain) = some matched ∧ d.heightOf matched = h

/-- The peer's page arrives as it was sent. -/
theorem next_of_page (reading : s.point = .reading) {page : List BlockHeaderOwned}
    (few : page.length ≤ 2000) (mined : ∀ header ∈ page, header.Mined sha256)
    (picked : ∀ length, (getArena length).capacity = arenaSize length) (rest : Bytes) :
    s.next p sha256 (.receive now getArena (writePacket sha256 (.headers page) ++ rest) true) =
      some (s.respond true (s.chainman.handlePacketDuringHeadersync p now (.headers page))) := by
  obtain ⟨short, fits⟩ := @headers_fitsIn sha256 _ _ few (picked _)
  have onWire : (PayloadToSend.headers page).OnWire sha256 :=
    fun header member => ⟨(mined header member).hashed, (mined header member).valid⟩
  obtain ⟨packet, read, delivers⟩ := readPacket_written onWire short fits rest
  obtain ⟨payload, sent, same⟩ := Option.map_eq_some_iff.mp (delivers.payload trivial)
  have arrived : payload = .headers page := by
    cases payload with
    | headers inner =>
      cases same
      rfl
    | _ => cases same
  rw [next, if_pos reading, read]
  dsimp only
  rw [sent, arrived]

/-- The step lemma: the page is empty, or it is applied as a whole and the next request
begins where it ends, unless the new top is recent. -/
theorem Asked.step (asked : Asked p d h s) (served : d.Served p sha256) (answered : AnsweredBy sha256 d s event)
    (step : s.Step p sha256 event t) :
    (d.topHeader.number ≤ h ∧ t.point = .connecting ∧ t.chainman = s.chainman) ∨
      h < d.topHeader.number ∧ (Asked p d (h + min (d.topHeader.number - h) 2000) t ∨
        t.point = .connecting ∧
          ∃ now getArena stream, event = .receive now getArena stream true ∧ t.chainman.chain.needIhd now = false) := by
  cases event with
  | receive now getArena stream written =>
    obtain ⟨rfl, picked, locator, rest, last, rfl⟩ := answered
    obtain ⟨locator', matched, last', found, level⟩ := asked.request
    cases last.symm.trans last'
    have page := served.answerTo_eq found
    rw [level] at page
    have few : (d.answerTo locator).length ≤ 2000 := by
      rw [page, Chain.mainHeaders]
      refine (List.length_filterMap_le _ _).trans ?_
      rw [List.length_range']
      exact min_le_right _ _
    have mined : ∀ header ∈ d.answerTo locator, header.Mined sha256 := by
      intro header member
      obtain ⟨b, stored, same⟩ := Chain.stored_of_mem_mainHeaders served.wellFormed (page ▸ member)
      exact same ▸ served.mined _ b stored
    have handled := Option.some.inj (step.symm.trans (next_of_page asked.reading few mined picked rest))
    rw [page] at handled
    cases remaining : min (d.topHeader.number - h) 2000 with
    | zero =>
      rw [remaining] at handled
      rw [handled]
      exact Or.inl ⟨by omega, rfl, rfl⟩
    | succ count =>
      rw [remaining] at handled
      refine Or.inr ⟨by omega, ?_⟩
      obtain ⟨b, atEnd, member, height⟩ :=
        served.indexed.getLast_mainHeaders served.wellFormed (by omega : h + 1 + count ≤ d.topHeader.number)
      obtain ⟨w, applied, further⟩ := asked.caught.page served (Nat.le_refl (h + 1))
        (by omega : h + 1 + (count + 1) ≤ d.topHeader.number + 1)
      rw [show max h (h + 1 + (count + 1) - 1) = h + (count + 1) by omega] at further
      rw [Chainman.handlePacketDuringHeadersync, atEnd] at handled
      dsimp only at handled
      rw [applied] at handled
      dsimp only at handled
      cases recent : w.chain.needIhd now with
      | true =>
        rw [recent, if_pos rfl] at handled
        left
        rw [handled]
        refine ⟨rfl, further, [b.header.hash], b.header.hash, by simp [respond, askFrom], ?_, by omega⟩
        rw [List.find?_cons_of_pos (by simpa using member)]
      | false =>
        rw [recent, if_neg Bool.false_ne_true] at handled
        right
        rw [handled]
        exact ⟨rfl, _, _, _, rfl, recent⟩
  | _ => exact answered.elim

/-- The first request begins at a block of the peer's main chain. -/
theorem asked_of_connect (served : d.Served p sha256) (valid : s.chainman.chain.Valid p)
    (compatible : s.chainman.chain.Compatible d) (bounded : s.chainman.chain.topHeader.number < 2 ^ 64)
    (step : s.Step p sha256 (.connect now true) t) : ∃ h, Asked p d h t := by
  have wf := valid.grown.wellFormed
  obtain ⟨v, built, locates⟩ := Chain.buildGetHeaders_spec (p := p) wf valid.grown.rooted bounded
  obtain ⟨shape, _, known⟩ := wf.buildGetHeaders_known built
  obtain ⟨matched, found, caught⟩ := served.matches valid compatible (List.mem_of_getLast? locates.last) known
  rw [Step, next] at step
  split at step
  · rw [built] at step
    cases step
    refine ⟨_, rfl, caught, v.blockLocator, matched, ?_, found, rfl⟩
    rw [← shape]
    exact List.getLast?_concat
  · cases step

/-- How far a connection is after some answers, when the first request begins at the height `h`. -/
def Progress (p : Profile) (d : Chain) (h : Nat) (answers : List HeaderSyncEvent) (s : HeaderSync) : Prop :=
  (∃ level, Asked p d level s ∧ min d.topHeader.number (h + 2000 * answers.length) ≤ level ∧
      2000 * answers.length < d.topHeader.number + 2000) ∨
    s.point = .connecting ∧ 2000 * answers.length < d.topHeader.number + 4000 ∧
      (Chain.Caught p d d.topHeader.number s.chainman.chain ∨
        ∃ now getArena stream, .receive now getArena stream true ∈ answers ∧ s.chainman.chain.needIhd now = false)

theorem Progress.step {answers : List HeaderSyncEvent} (progress : Progress p d h answers s)
    (served : d.Served p sha256) (answered : AnsweredBy sha256 d s event) (step : s.Step p sha256 event t) :
    Progress p d h (answers ++ [event]) t := by
  rw [Progress, List.length_append, List.length_singleton]
  rcases progress with ⟨level, asked, low, few⟩ | ⟨ended, _⟩
  · rcases asked.step served answered step with ⟨above, ended, same⟩ | ⟨below, further | ⟨ended, _, _, _, rfl, recent⟩⟩
    · have whole : Chain.Caught p d d.topHeader.number t.chainman.chain := by
        rw [same]
        exact ⟨asked.caught.valid, asked.caught.compatible, fun n inside => asked.caught.knows n (inside.trans above)⟩
      exact Or.inr ⟨ended, by omega, Or.inl whole⟩
    · exact Or.inl ⟨_, further, by omega, by omega⟩
    · exact Or.inr ⟨ended, by omega, Or.inr ⟨_, _, _, List.mem_append_right _ List.mem_cons_self, recent⟩⟩
  · -- nothing is read from a connection that has ended
    cases event with
    | receive =>
      rw [Step, next, if_neg (by simp [ended])] at step
      cases step
    | _ => exact answered.elim

end HeaderSync

/-- Who knows the whole main chain of a peer has a top with at least its work. -/
theorem Chain.Caught.work_le {c : Chain} (caught : Caught p d d.topHeader.number c) (served : d.Served p sha256) :
    d.topHeader.totalWork ≤ c.topHeader.totalWork := by
  have atTop : d.numberToHash d.topHeader.number = some d.topHeader.header.hash :=
    (served.indexed.numbers _ _).mpr ⟨.refl _, served.wellFormed.top.heightOf⟩
  obtain ⟨b, stored⟩ := Option.isSome_iff_exists.mp (caught.knows _ (Nat.le_refl _) _ atTop)
  obtain ⟨top, stored', _⟩ := served.wellFormed.top
  rw [← served.valid.topWork top stored', ← (caught.valid.agree served.valid caught.compatible stored stored').2]
  exact caught.valid.mostWork _ b stored

namespace HeaderSync

variable {s asked t : HeaderSync} {now : Nat}

/-- With a peer that serves its chain by the rule of the protocol, header sync gets 2000 blocks further with each
answer, until it has the whole main chain of the peer or a recent top. -/
theorem catches_up {answers : List HeaderSyncEvent} (served : d.Served p sha256) (valid : s.chainman.chain.Valid p)
    (compatible : s.chainman.chain.Compatible d) (bounded : s.chainman.chain.topHeader.number < 2 ^ 64)
    (connects : s.Step p sha256 (.connect now true) asked)
    (run : Run (Guarded (AnsweredBy sha256 d) (Step p sha256)) asked answers t) :
    2000 * answers.length < d.topHeader.number + 4000 ∧
      (t.point = .reading ∧ Chain.Caught p d (min d.topHeader.number (2000 * answers.length)) t.chainman.chain ∨
        t.point = .connecting ∧
          (Chain.Caught p d d.topHeader.number t.chainman.chain ∧
              d.topHeader.totalWork ≤ t.chainman.chain.topHeader.totalWork ∨
            ∃ now getArena stream, .receive now getArena stream true ∈ answers ∧
              t.chainman.chain.needIhd now = false)) := by
  obtain ⟨h, first⟩ := asked_of_connect served valid compatible bounded connects
  have progress : Progress p d h answers t := by
    refine run.history (P := Progress p d h) ?_ fun _ _ _ _ before ⟨answered, step⟩ => before.step served answered step
    exact Or.inl ⟨h, first, by rw [List.length_nil]; omega, by rw [List.length_nil]; omega⟩
  rcases progress with ⟨level, further, low, few⟩ | ⟨ended, few, whole | recent⟩
  · refine ⟨by omega, Or.inl ⟨further.reading, further.caught.valid, further.caught.compatible, ?_⟩⟩
    exact fun n inside => further.caught.knows n (by omega)
  · exact ⟨few, Or.inr ⟨ended, Or.inl ⟨whole, whole.work_le served⟩⟩⟩
  · exact ⟨few, Or.inr ⟨ended, Or.inr recent⟩⟩

end HeaderSync

def minedChainman : Chainman := afterCalls .dev startChainman [(minedHeader, true)]

/-- The chain of `minedHeader` with its index. -/
def minedChain : Chain :=
  match minedChainman.chain.generateTopWorkChainHashset with
  | .ok c => c
  | _ => minedChainman.chain

theorem minedHeader_mined : minedHeader.Mined Sha256.sha256 := ⟨by decide +kernel, by decide⟩

theorem minedChain_served : minedChain.Served .dev Sha256.sha256 := by
  have step : HeaderCall .dev startChainman (minedHeader, true) minedChainman := headerCall_of_returns (by decide)
  have valid := step.valid Chain.default_valid
  obtain ⟨set, map, built, indexed⟩ := valid.grown.wellFormed.generateTopWorkChainHashset
  have shape : minedChain = { minedChainman.chain with mostWorkChain := set, numberToHash := map } := by
    rw [minedChain, built]
  have absent : minedChain.knownHeaders emptyHash = none := by decide
  refine ⟨?_, shape ▸ indexed, ?_, by simp [Chain.Known, absent]⟩
  · rw [shape]
    exact valid.reindexed rfl rfl
  · intro hash b stored
    have known : mapInsert (mapInsert (fun _ => none) genesisHeader.hash genesis) minedHeader.hash
        ⟨minedHeader, 1, false, 2 * genesis.totalWork, none⟩ hash = some b := by
      rw [shape] at stored
      exact stored
    rcases mapInsert_origin known with ⟨_, rfl⟩ | known
    · exact minedHeader_mined
    · rw [(Chain.default_known known).2]
      exact ⟨by decide +kernel, by decide⟩

namespace HeaderSync

theorem arenaSize_inBounds (length : Nat) : 4096 + arenaSize length < 2 ^ 64 := by
  unfold arenaSize
  split
  · decide
  · decide

/-- After the first request. -/
def askedGenesis : HeaderSync := ⟨startChainman, .reading, [askFrom [genesisHeader.hash]]⟩

/-- What the peer sends when it is asked from genesis. -/
def minedPage : HeaderSyncEvent :=
  .receive 2000000000 (fun length => ⟨4096, arenaSize length, arenaSize_inBounds length⟩)
    (writePacket Sha256.sha256 (.headers [minedHeader]) ++ []) true

theorem catches_up_mined :
    ∃ t, Run (Step .dev Sha256.sha256) (HeaderSync.start startChainman) [.connect 2000000000 true, minedPage] t ∧
      (t.point = .reading ∧ Chain.Caught .dev minedChain (min minedChain.topHeader.number 2000) t.chainman.chain ∨
        t.point = .connecting) := by
  have connects : (HeaderSync.start startChainman).Step .dev Sha256.sha256 (.connect 2000000000 true) askedGenesis := rfl
  have answer : minedChain.answerTo [genesisHeader.hash] = [minedHeader] := by decide
  have mined : ∀ header ∈ [minedHeader], header.Mined Sha256.sha256 := by
    intro header member
    rw [List.mem_singleton.mp member]
    exact minedHeader_mined
  have step := @next_of_page .dev Sha256.sha256 askedGenesis 2000000000
    (fun length => ⟨4096, arenaSize length, arenaSize_inBounds length⟩) rfl [minedHeader] (by decide) mined
    (fun _ => rfl) []
  have answered : AnsweredBy Sha256.sha256 minedChain askedGenesis minedPage :=
    ⟨rfl, fun _ => rfl, [genesisHeader.hash], [], rfl, by rw [answer]⟩
  have compatible : startChainman.chain.Compatible minedChain := by
    intro hash b b' stored stored'
    obtain ⟨rfl, rfl⟩ := Chain.default_known stored
    cases (show minedChain.knownHeaders genesisHeader.hash = some genesis by decide).symm.trans stored'
    rfl
  have result := catches_up minedChain_served Chain.default_valid compatible (by decide) connects
    (.single ⟨answered, step⟩)
  exact ⟨_, .cons connects (.single step), result.2.imp id And.left⟩

end HeaderSync

end Bitlens

import Bitlens.JobDispatch

namespace Bitlens
open Lib

/-! The loop of the manager. -/

theorem swapRemove_perm {α : Type} {xs : List α} {i : Nat} {x : α} (atI : xs[i]? = some x) :
    xs.Perm (x :: swapRemove xs i) := by
  obtain ⟨front, back, whole, replaced⟩ := exists_slot atI
  rcases List.eq_nil_or_concat back with rfl | ⟨middle, last, rfl⟩
  · have atLast : xs.getLast? = some x := by simp [whole]
    simp only [swapRemove, atLast, replaced, List.dropLast_concat]
    rw [whole]
    exact List.perm_append_singleton x front
  · have split : ∀ y, front ++ y :: middle.concat last = (front ++ y :: middle) ++ [last] := by simp
    have atLast : xs.getLast? = some last := by rw [whole, split, List.getLast?_concat]
    simp only [swapRemove, atLast, replaced, split, List.dropLast_concat]
    rw [whole, List.concat_eq_append]
    refine List.perm_middle.trans (List.Perm.cons x ?_)
    rw [← List.append_assoc]
    exact (List.perm_append_singleton last (front ++ middle)).trans List.perm_middle.symm

/-- The manager asks one worker after the other, until one of them is there. -/
theorem offer_spec {alive : Registration → Bool} {pick : Nat → Nat} {fuel : Nat} {workers left : List Registration}
    {worker : Option Registration} (enough : workers.length ≤ fuel)
    (offered : offer alive pick fuel workers = (worker, left)) :
    (∃ dead, workers.Perm (worker.toList ++ left ++ dead) ∧ ∀ r ∈ dead, alive r = false) ∧
      (∀ r ∈ worker, alive r = true) := by
  induction fuel generalizing workers with
  | zero =>
    cases offered
    exact ⟨⟨[], by simp, by simp⟩, by simp⟩
  | succ fuel ih =>
    unfold offer at offered
    split at offered
    · cases offered
      exact ⟨⟨[], by simp, by simp⟩, by simp⟩
    · next first atPick =>
      have moved := swapRemove_perm atPick
      dsimp only at offered
      split at offered
      · next there =>
        cases offered
        exact ⟨⟨[], by simpa using moved, by simp⟩, by simpa using there⟩
      · next gone =>
        have shorter := moved.length_eq
        rw [List.length_cons] at shorter
        obtain ⟨⟨dead, whole, absent⟩, there⟩ := ih (by omega) offered
        refine ⟨⟨first :: dead, moved.trans ((whole.cons first).trans List.perm_middle.symm), ?_⟩, there⟩
        exact List.forall_mem_cons.mpr ⟨Bool.eq_false_of_not_eq_true gone, absent⟩

/-- The peer waits for a job, or will when the chain watcher has taken what it gives. -/
def PeerLoop.Listens (peer : PeerLoop) : Prop :=
  match peer.point with
  | .selecting | .sending _ => True
  | _ => False

/-- The sender of the peer's current channel may be with the manager. -/
def PeerLoop.Listed (peer : PeerLoop) : Prop :=
  peer.received = none ∧ (peer.Listens ∨ peer.point = .gone)

/-- The jobs that the peer has received. -/
def PeerLoop.jobs (peer : PeerLoop) : List Hash :=
  peer.received.toList ++ (match peer.point with | .asking job => [job] | _ => []) ++ peer.asked

theorem asked_sublist_jobs (peers : List PeerLoop) :
    (peers.flatMap (·.asked)).Sublist (peers.flatMap PeerLoop.jobs) := by
  induction peers with
  | nil => exact List.Sublist.refl _
  | cons peer peers ih => exact (List.sublist_append_right _ _).append ih

/-- The job that the watcher sends. -/
def WatcherPoint.job : WatcherPoint → List Hash
  | .sending job => [job]
  | _ => []

/-- The senders that the manager has or will have, and the tasks of the peers. -/
structure Registered (senders : List Registration) (peers : List PeerLoop) (managing : Bool) : Prop where
  distinct : (senders.map (·.peer)).Nodup
  current : ∀ r ∈ senders, ∃ peer, peers[r.peer]? = some peer ∧ peer.round = r.round ∧ peer.Listed
  listed : managing = true → ∀ i peer, peers[i]? = some peer → peer.Listens → peer.received = none →
    ⟨i, peer.round⟩ ∈ senders
  received : ∀ peer ∈ peers, peer.received ≠ none → peer.Listens
  calm : managing = true → ∀ peer ∈ peers, peer.point ≠ .panicked

namespace Registered

variable {senders senders' : List Registration} {peers : List PeerLoop} {managing : Bool} {i : Nat}
  {peer peer' : PeerLoop}

theorem perm (registered : Registered senders peers managing) (moved : senders'.Perm senders) :
    Registered senders' peers managing where
  distinct := (moved.map _).nodup_iff.mpr registered.distinct
  current r member := registered.current r (moved.mem_iff.mp member)
  listed on i peer atI listens empty := moved.mem_iff.mpr (registered.listed on i peer atI listens empty)
  received := registered.received
  calm := registered.calm

/-- One peer goes on, and its own sender with it. -/
theorem set (registered : Registered senders peers managing) (atI : peers[i]? = some peer)
    (others : ∀ r, r.peer ≠ i → (r ∈ senders' ↔ r ∈ senders)) (distinct : (senders'.map (·.peer)).Nodup)
    (own : ∀ r ∈ senders', r.peer = i → peer'.round = r.round ∧ peer'.Listed)
    (listed : managing = true → peer'.Listens → peer'.received = none → ⟨i, peer'.round⟩ ∈ senders')
    (received : peer'.received ≠ none → peer'.Listens) (calm : managing = true → peer'.point ≠ .panicked) :
    Registered senders' (peers.set i peer') managing := by
  obtain ⟨inside, _⟩ := List.getElem?_eq_some_iff.mp atI
  refine ⟨distinct, fun r member => ?_, fun on j other atJ listens empty => ?_, fun other member => ?_,
    fun on other member => ?_⟩
  · by_cases same : r.peer = i
    · obtain ⟨round, held⟩ := own r member same
      exact ⟨peer', by rw [same, List.getElem?_set_self inside], round, held⟩
    · rw [List.getElem?_set_ne (Ne.symm same)]
      exact registered.current r ((others r same).mp member)
  · by_cases same : i = j
    · rw [← same, List.getElem?_set_self inside] at atJ
      cases atJ
      exact same ▸ listed on listens empty
    · rw [List.getElem?_set_ne same] at atJ
      exact (others _ (Ne.symm same)).mpr (registered.listed on j other atJ listens empty)
  · rcases List.mem_or_eq_of_mem_set member with before | rfl
    · exact registered.received other before
    · exact received
  · rcases List.mem_or_eq_of_mem_set member with before | rfl
    · exact registered.calm on other before
    · exact calm on

/-- A peer goes on between points at which its sender may be with the manager. -/
theorem keep (registered : Registered senders peers managing) (atI : peers[i]? = some peer)
    (round : peer'.round = peer.round) (received : peer'.received = peer.received) (before : peer.Listens)
    (listens : peer'.Listens) : Registered senders (peers.set i peer') managing := by
  refine registered.set atI (fun _ _ => Iff.rfl) registered.distinct (fun r member same => ?_) (fun on _ empty => ?_)
    (fun _ => listens) (fun _ panicked => ?_)
  · obtain ⟨found, atR, rounds, empty, _⟩ := registered.current r member
    rw [same, atI] at atR
    cases atR
    exact ⟨round.trans rounds, received.trans empty, Or.inl listens⟩
  · rw [round]
    exact registered.listed on i peer atI before (received ▸ empty)
  · rw [PeerLoop.Listens, panicked] at listens
    exact listens

/-- A peer goes on that has no sender with the manager. -/
theorem unlisted (registered : Registered senders peers managing) (atI : peers[i]? = some peer)
    (absent : ¬ peer.Listed) (still : ¬ peer'.Listens) (received : peer'.received = none)
    (calm : managing = true → peer'.point ≠ .panicked) : Registered senders (peers.set i peer') managing := by
  refine registered.set atI (fun _ _ => Iff.rfl) registered.distinct (fun r member same => ?_)
    (fun _ listens => absurd listens still) (fun some_ => absurd received some_) calm
  obtain ⟨found, atR, _, listed⟩ := registered.current r member
  rw [same, atI] at atR
  cases atR
  exact absurd listed absent

/-- A session ends; its sender stays with the manager. -/
theorem gone (registered : Registered senders peers managing) (atI : peers[i]? = some peer)
    (point : peer'.point = .gone) (round : peer'.round = peer.round) (received : peer'.received = none) :
    Registered senders (peers.set i peer') managing := by
  refine registered.set atI (fun _ _ => Iff.rfl) registered.distinct (fun r member same => ?_) (fun _ listens => ?_)
    (fun some_ => absurd received some_) (fun _ => by rw [point]; exact LoopPoint.noConfusion)
  · obtain ⟨found, atR, rounds, _⟩ := registered.current r member
    rw [same, atI] at atR
    cases atR
    exact ⟨round.trans rounds, received, Or.inr point⟩
  · rw [PeerLoop.Listens, point] at listens
    exact listens.elim

theorem empty_of_not_listens (registered : Registered senders peers managing) (atI : peers[i]? = some peer)
    (still : ¬ peer.Listens) : peer.received = none := by
  by_contra some_
  exact still (registered.received peer (List.mem_of_getElem? atI) some_)

theorem register (registered : Registered senders peers managing) (atI : peers[i]? = some peer)
    (waiting : peer.point = .registering) :
    Registered (⟨i, peer.round⟩ :: senders) (peers.set i { peer with point := .selecting }) managing := by
  have empty := registered.empty_of_not_listens atI (by simp [PeerLoop.Listens, waiting])
  have absent : ∀ r ∈ senders, r.peer ≠ i := by
    intro r member same
    obtain ⟨before, atR, _, _, held⟩ := registered.current r member
    rw [same, atI] at atR
    cases atR
    simp [PeerLoop.Listens, waiting] at held
  refine registered.set atI (fun r other => ?_) ?_ (fun r member same => ?_) (fun _ _ _ => List.mem_cons_self)
    (fun _ => trivial) (fun _ => LoopPoint.noConfusion)
  · simp [Registration.ext_iff, other]
  · refine List.nodup_cons.mpr ⟨fun member => ?_, registered.distinct⟩
    obtain ⟨r, inSenders, same⟩ := List.mem_map.mp member
    exact absent r inSenders same
  · rcases List.mem_cons.mp member with rfl | before
    · exact ⟨rfl, empty, Or.inl trivial⟩
    · exact absurd same (absent r before)

theorem connect (registered : Registered senders peers managing) : Registered senders (peers ++ [.new]) managing where
  distinct := registered.distinct
  current r member := by
    obtain ⟨peer, atR, rest⟩ := registered.current r member
    exact ⟨peer, List.getElem?_append_left (List.getElem?_eq_some_iff.mp atR).1 ▸ atR, rest⟩
  listed on i peer atI listens empty := by
    rw [List.getElem?_append] at atI
    split at atI
    · exact registered.listed on i peer atI listens empty
    · rw [List.mem_singleton.mp (List.mem_of_getElem? atI)] at listens
      exact listens.elim
  received := List.forall_mem_append.mpr ⟨registered.received, by simp [PeerLoop.new]⟩
  calm on := List.forall_mem_append.mpr ⟨registered.calm on, by simp [PeerLoop.new]⟩

/-- Senders are dropped whose receivers are gone. -/
theorem drop (registered : Registered senders peers managing) {dead : List Registration}
    (whole : senders.Perm (senders' ++ dead))
    (absent : ∀ r ∈ dead, ∀ peer, peers[r.peer]? = some peer → peer.round = r.round → peer.alive = false) :
    Registered senders' peers managing := by
  have moved := registered.perm whole.symm
  refine ⟨?_, fun r member => moved.current r (List.mem_append_left _ member), fun on i peer atI listens empty => ?_,
    moved.received, moved.calm⟩
  · have distinct := moved.distinct
    rw [List.map_append] at distinct
    exact (List.nodup_append.mp distinct).1
  · refine (List.mem_append.mp (moved.listed on i peer atI listens empty)).resolve_right fun inDead => ?_
    have gone := absent _ inDead peer atI rfl
    unfold PeerLoop.Listens at listens
    unfold PeerLoop.alive at gone
    split at gone <;> simp_all

/-- A sender is used for a job. -/
theorem deliver {r : Registration} (registered : Registered (r :: senders) peers managing)
    (atR : peers[r.peer]? = some peer) (alive : peer.alive = true) (job : Hash) :
    Registered senders (peers.set r.peer { peer with received := some job }) managing := by
  obtain ⟨absent, distinct⟩ := List.nodup_cons.mp registered.distinct
  have listens : peer.Listens := by
    obtain ⟨found, atR', _, _, listed⟩ := registered.current r List.mem_cons_self
    rw [atR] at atR'
    cases atR'
    refine listed.resolve_right fun gone => ?_
    simp [PeerLoop.alive, gone] at alive
  refine registered.set atR (fun other apart => ?_) distinct (fun other member same => ?_)
    (fun _ _ empty => nomatch empty) (fun _ => listens) (fun _ panicked => ?_)
  · have differs : other ≠ r := fun same => apart (same ▸ rfl)
    simp [differs]
  · exact absurd (List.mem_map.mpr ⟨other, member, same⟩) absent
  · simp only at panicked
    rw [PeerLoop.Listens, panicked] at listens
    exact listens

theorem close (registered : Registered senders peers managing) : Registered [] peers false where
  distinct := List.nodup_nil
  current _ member := nomatch member
  listed on := nomatch on
  received := registered.received
  calm on := nomatch on

end Registered

namespace Dispatch

variable {s t : Dispatch} {event : DispatchEvent} {p : Profile} {sha256 : Bytes → Hash} {scripts : Scripts}

/-- What a step does to the jobs, the senders and the tasks of the peers. -/
inductive Moves (s : Dispatch) : Dispatch → Prop
  | watches {keepup watcher headers blocks} : s.watcher = .selecting →
      (watcher = .selecting ∨ watcher = .ended ∧ headers = [] ∧ blocks = []) →
      Moves s { s with toKeepup := keepup, watcher := watcher, receivedHeaders := headers, receivedBlocks := blocks }
  | ticks {job} : s.watcher = .selecting →
      Moves s { s with watcher := .sending job, ticked := s.ticked ++ [job] }
  | sends {job} : s.watcher = .sending job → s.managing = true →
      Moves s { s with watcher := .selecting, jobs := s.jobs ++ [job] }
  | drops {job} : s.watcher = .sending job → s.managing = false → Moves s { s with watcher := .selecting }
  | manages {r rest} : s.registrations = r :: rest →
      Moves s { s with registrations := rest, workers := s.workers ++ [r] }
  | loses {job rest workers dead} : s.jobs = job :: rest → s.workers.Perm (workers ++ dead) →
      (∀ r ∈ dead, s.alive r = false) → Moves s { s with jobs := rest, workers := workers }
  | delivers {job rest r peer workers dead} : s.jobs = job :: rest → s.workers.Perm (r :: workers ++ dead) →
      (∀ r ∈ dead, s.alive r = false) → s.peers[r.peer]? = some peer → peer.alive = true →
      Moves s ({ s with jobs := rest, workers := workers }.setPeer r.peer { peer with received := some job })
  | closes : s.watcher = .ended → s.jobs = [] → Moves s { s with managing := false, registrations := [], workers := [] }
  | connects : Moves s { s with peers := s.peers ++ [.new] }
  | registers {i peer} : s.peers[i]? = some peer → peer.point = .registering → s.managing = true →
      Moves s { s.setPeer i { peer with point := .selecting } with
        registrations := s.registrations ++ [⟨i, peer.round⟩] }
  | panics {i peer} : s.peers[i]? = some peer → peer.point = .registering → s.managing = false →
      Moves s (s.setPeer i { peer with point := .panicked })
  | keeps {i peer peer' headers blocks} : s.peers[i]? = some peer → peer.Listens → peer'.Listens →
      peer'.round = peer.round → peer'.received = peer.received → peer'.asked = peer.asked →
      (s.watcher = .ended → headers = s.receivedHeaders ∧ blocks = s.receivedBlocks) →
      Moves s { s.setPeer i peer' with receivedHeaders := headers, receivedBlocks := blocks }
  | takes {i peer job} : s.peers[i]? = some peer → peer.point = .selecting → peer.received = some job →
      Moves s (s.setPeer i { peer with point := .asking job, received := none })
  | orphaned {i peer} : s.peers[i]? = some peer → peer.point = .selecting → peer.received = none →
      ⟨i, peer.round⟩ ∉ s.registrations ++ s.workers → Moves s (s.setPeer i { peer with point := .gone })
  | asks {i peer job asked} : s.peers[i]? = some peer → peer.point = .asking job →
      (asked = peer.asked ∨ asked = peer.asked ++ [job]) →
      Moves s (s.setPeer i ⟨.registering, peer.round + 1, none, asked⟩)
  | leaves {i peer} : s.peers[i]? = some peer → (peer.point = .selecting ∨ ∃ job, peer.point = .asking job) →
      Moves s (s.setPeer i { peer with point := .gone, received := none })

theorem alive_iff {r : Registration} :
    s.alive r = true ↔ ∃ peer, s.peers[r.peer]? = some peer ∧ peer.round = r.round ∧ peer.alive = true := by
  cases atR : s.peers[r.peer]? <;> simp [alive, atR]

theorem moves_of_watched {keepup : Keepup} {outcome : Outcome Unit} {headers : List BlockHeaderOwned}
    {blocks : List Block} (selecting : s.watcher = .selecting) :
    Moves s ({ s with receivedHeaders := headers, receivedBlocks := blocks }.watched keepup outcome) := by
  cases outcome with
  | ok _ => exact .watches selecting (Or.inl selecting)
  | err | fault => exact .watches selecting (Or.inr ⟨rfl, rfl, rfl⟩)

theorem moves_of_dispatched {job : Hash} {rest : List Hash} {pick : Nat → Nat} {worker : Option Registration}
    {workers : List Registration} (waiting : s.jobs = job :: rest)
    (offered : offer s.alive pick s.workers.length s.workers = (worker, workers)) :
    Moves s ({ s with jobs := rest, workers := workers }.deliver job worker) := by
  obtain ⟨⟨dead, whole, absent⟩, there⟩ := offer_spec le_rfl offered
  cases worker with
  | none => exact .loses waiting (by simpa using whole) absent
  | some r =>
    obtain ⟨peer, atR, _, alive⟩ := alive_iff.mp (there r rfl)
    have found : ({ s with jobs := rest, workers := workers } : Dispatch).peers[r.peer]? = some peer := atR
    rw [deliver]
    dsimp only at found ⊢
    rw [found]
    exact .delivers waiting (by simpa using whole) absent atR alive

theorem moves_of_gave {i : Nat} {peer peer' : PeerLoop} {item : BlockHeaderOwned ⊕ Block}
    (gave : s.give item = some t) (atI : s.peers[i]? = some peer) (before : peer.Listens) (listens : peer'.Listens)
    (round : peer'.round = peer.round) (received : peer'.received = peer.received) (asked : peer'.asked = peer.asked) :
    Moves s (t.setPeer i peer') := by
  unfold give at gave
  cases item with
  | inl header | inr block =>
    dsimp only at gave
    split at gave
    · cases gave
      exact .keeps atI before listens round received asked fun _ => ⟨rfl, rfl⟩
    · next alive =>
      split at gave <;> cases gave
      exact .keeps atI before listens round received asked fun ended => absurd ended alive

theorem moves_of_sendsJob (step : s.next p sha256 scripts .sendsJob = some t) : Moves s t := by
  unfold next at step
  dsimp only at step
  split at step
  · next job sending =>
    split at step
    · next on =>
      split at step <;> cases step
      exact .sends sending on
    · next closed =>
      cases step
      exact .drops sending (Bool.eq_false_of_not_eq_true closed)
  · cases step

theorem moves_of_registers {i : Nat} (step : s.next p sha256 scripts (.registers i) = some t) : Moves s t := by
  unfold next at step
  dsimp only at step
  split at step
  · next peer atI =>
    split at step
    · next waiting =>
      split at step
      · next on =>
        split at step <;> cases step
        exact .registers atI waiting on
      · next closed =>
        cases step
        exact .panics atI waiting (Bool.eq_false_of_not_eq_true closed)
    · cases step
  · cases step

theorem moves_of_gives {i : Nat} (step : s.next p sha256 scripts (.gives i) = some t) : Moves s t := by
  unfold next at step
  dsimp only at step
  split at step
  · next peer atI =>
    split at step
    · next sending =>
      obtain ⟨u, gave, same⟩ := Option.map_eq_some_iff.mp step
      cases same
      exact moves_of_gave gave atI (by simp [PeerLoop.Listens, sending]) trivial rfl rfl rfl
    · next sending =>
      cases step
      exact .keeps atI (by simp [PeerLoop.Listens, sending]) trivial rfl rfl rfl fun _ => ⟨rfl, rfl⟩
    · cases step
  · cases step

theorem moves_of_takesJob {i : Nat} (step : s.next p sha256 scripts (.takesJob i) = some t) : Moves s t := by
  unfold next at step
  dsimp only at step
  split at step
  · next peer atI =>
    split at step
    · next selecting job =>
      cases step
      exact .takes atI selecting job
    · next selecting empty =>
      split at step <;> cases step
      next absent => exact .orphaned atI selecting empty absent
    · cases step
  · cases step

theorem moves_of_asks {i : Nat} {flags : SyncFlags} (step : s.next p sha256 scripts (.asks i flags) = some t) :
    Moves s t := by
  unfold next at step
  dsimp only at step
  split at step
  · next peer atI =>
    split at step
    · next asking =>
      cases step
      refine .asks atI asking ?_
      split
      · exact Or.inr rfl
      · exact Or.inl rfl
    · cases step
  · cases step

theorem moves_of_leaves {i : Nat} (step : s.next p sha256 scripts (.leaves i) = some t) : Moves s t := by
  unfold next at step
  dsimp only at step
  split at step
  · next peer atI =>
    split at step
    · next selecting =>
      cases step
      exact .leaves atI (Or.inl selecting)
    · next asking =>
      cases step
      exact .leaves atI (Or.inr ⟨_, asking⟩)
    · cases step
  · cases step

theorem moves_of_step (step : s.Step p sha256 scripts event t) : Moves s t := by
  unfold Step at step
  cases event with
  | ticks =>
    dsimp only [next] at step
    split at step
    · next selecting =>
      split at step <;> cases step
      · exact .watches selecting (Or.inl selecting)
      · exact .ticks selecting
    · cases step
  | sendsJob => exact moves_of_sendsJob step
  | newHeader | newBlock env =>
    dsimp only [next] at step
    split at step
    · next selecting _ =>
      cases step
      exact moves_of_watched selecting
    · cases step
  | manages =>
    dsimp only [next] at step
    split at step
    · next waiting =>
      split at step <;> cases step
      exact .manages waiting
    · cases step
  | dispatches pick =>
    dsimp only [next] at step
    split at step
    · next waiting =>
      split at step <;> cases step
      exact moves_of_dispatched waiting rfl
    · cases step
  | closes =>
    dsimp only [next] at step
    split at step
    · next ended =>
      cases step
      exact .closes ended.2.1 ended.2.2
    · cases step
  | connects =>
    cases step
    exact .connects
  | registers i => exact moves_of_registers step
  | receives i payload flags =>
    dsimp only [next] at step
    split at step
    · next peer atI =>
      split at step
      · next selecting =>
        cases step
        exact .keeps atI (by simp [PeerLoop.Listens, selecting]) trivial rfl rfl rfl fun _ => ⟨rfl, rfl⟩
      · cases step
    · cases step
  | gives i => exact moves_of_gives step
  | takesJob i => exact moves_of_takesJob step
  | asks i flags => exact moves_of_asks step
  | leaves i => exact moves_of_leaves step

/-- The senders of the state are as they should be, and the manager runs as long as the watcher does. -/
structure Sound (s : Dispatch) : Prop where
  registered : Registered (s.registrations ++ s.workers) s.peers s.managing
  managed : s.watcher ≠ .ended → s.managing = true

theorem dead_of_absent {dead : List Registration} (absent : ∀ r ∈ dead, s.alive r = false) :
    ∀ r ∈ dead, ∀ peer, s.peers[r.peer]? = some peer → peer.round = r.round → peer.alive = false := by
  intro r member peer atR round
  by_contra alive
  have there := alive_iff.mpr ⟨peer, atR, round, Bool.eq_true_of_not_eq_false alive⟩
  rw [absent r member] at there
  cases there

/-- The step lemma. -/
theorem Sound.moves (sound : Sound s) (moves : Moves s t) : Sound t := by
  obtain ⟨registered, managed⟩ := sound
  cases moves with
  | watches selecting _ | ticks selecting =>
    exact ⟨registered, fun _ => managed (by rw [selecting]; exact WatcherPoint.noConfusion)⟩
  | sends sending =>
    exact ⟨registered, fun _ => managed (by rw [sending]; exact WatcherPoint.noConfusion)⟩
  | drops sending closed =>
    have alive := managed (by rw [sending]; exact WatcherPoint.noConfusion)
    rw [closed] at alive
    cases alive
  | @manages r rest waiting =>
    refine ⟨registered.perm ?_, managed⟩
    rw [waiting, ← List.append_assoc]
    exact List.perm_append_singleton r (rest ++ s.workers)
  | loses _ whole absent =>
    refine ⟨registered.drop ?_ (dead_of_absent absent), managed⟩
    rw [List.append_assoc]
    exact whole.append_left s.registrations
  | @delivers job rest r peer workers dead _ whole absent atR alive =>
    have moved : (s.registrations ++ s.workers).Perm (r :: (s.registrations ++ workers) ++ dead) := by
      refine (whole.append_left s.registrations).trans ?_
      rw [List.cons_append, List.cons_append, List.append_assoc]
      exact List.perm_middle
    exact ⟨(registered.drop moved (dead_of_absent absent)).deliver atR alive job, managed⟩
  | closes ended => exact ⟨registered.close, fun alive => absurd ended alive⟩
  | connects => exact ⟨registered.connect, managed⟩
  | @registers i peer atI waiting _ =>
    refine ⟨(registered.register atI waiting).perm ?_, managed⟩
    rw [List.append_assoc]
    exact List.perm_middle
  | @panics i peer atI waiting closed =>
    have empty := registered.empty_of_not_listens atI (by simp [PeerLoop.Listens, waiting])
    refine ⟨registered.unlisted atI (fun listed => ?_) id empty fun on => ?_, managed⟩
    · simpa [PeerLoop.Listens, waiting] using listed.2
    · rw [closed] at on
      cases on
  | keeps atI before listens round received _ => exact ⟨registered.keep atI round received before listens, managed⟩
  | takes atI selecting received =>
    refine ⟨registered.unlisted atI (fun listed => ?_) id rfl fun _ => LoopPoint.noConfusion, managed⟩
    rw [listed.1] at received
    cases received
  | orphaned atI selecting empty absent => exact ⟨registered.gone atI rfl rfl empty, managed⟩
  | asks atI asking _ =>
    refine ⟨registered.unlisted atI (fun listed => ?_) id rfl fun _ => LoopPoint.noConfusion, managed⟩
    simpa [PeerLoop.Listens, asking] using listed.2
  | leaves atI _ => exact ⟨registered.gone atI rfl rfl rfl, managed⟩

theorem sound_start (w : Chainman) : Sound (start w) := by
  refine ⟨⟨List.nodup_nil, ?_, ?_, ?_, ?_⟩, fun _ => rfl⟩
  all_goals simp [start]

theorem sound_of_run {w : Chainman} {events : List DispatchEvent}
    (run : Run (Step p sha256 scripts) (start w) events s) : Sound s :=
  run.invariant (sound_start w) fun _ _ _ before step => before.moves (moves_of_step step)

/-- The jobs that are on their way, and the blocks that peers were asked for. -/
def underway (s : Dispatch) : List Hash :=
  s.watcher.job ++ s.jobs ++ s.peers.flatMap PeerLoop.jobs

theorem Moves.conserves (moves : Moves s t) (hash : Hash) (before : s.underway.count hash ≤ s.ticked.count hash) :
    t.underway.count hash ≤ t.ticked.count hash := by
  simp only [underway, List.count_append] at before ⊢
  have slot : ∀ {i peer peer'}, s.peers[i]? = some peer →
      (PeerLoop.jobs peer').count hash ≤ (PeerLoop.jobs peer).count hash →
        s.watcher.job.count hash + s.jobs.count hash + ((s.peers.set i peer').flatMap PeerLoop.jobs).count hash ≤
          s.ticked.count hash := by
    intro i peer peer' atI fewer
    have balance := count_flatMap_set (y := peer') PeerLoop.jobs atI hash
    omega
  cases moves with
  | watches selecting ends =>
    rcases ends with rfl | ⟨rfl, _⟩
    · simpa [selecting] using before
    · simpa [selecting, WatcherPoint.job] using before
  | ticks selecting =>
    simp only [selecting, WatcherPoint.job, List.count_append, List.count_nil] at before ⊢
    omega
  | sends sending =>
    simp only [sending, WatcherPoint.job, List.count_append, List.count_nil] at before ⊢
    omega
  | drops sending _ =>
    simp only [sending, WatcherPoint.job, List.count_nil] at before ⊢
    omega
  | manages _ | closes _ => exact before
  | loses waiting =>
    rw [waiting, List.count_cons] at before
    dsimp only
    omega
  | @delivers job rest r peer workers dead waiting _ _ atR =>
    have balance := count_flatMap_set (y := { peer with received := some job }) PeerLoop.jobs atR hash
    rw [waiting, List.count_cons] at before
    simp only [PeerLoop.jobs, List.count_append, Option.toList_some, List.count_cons, List.count_nil] at balance
    dsimp only [setPeer]
    omega
  | connects => simpa [PeerLoop.new, PeerLoop.jobs] using before
  | registers atI waiting | panics atI waiting => exact slot atI (by simp [PeerLoop.jobs, waiting])
  | @keeps i peer peer' headers blocks atI listens listens' _ received asked =>
    have silent : ∀ {q : PeerLoop}, q.Listens → q.jobs = q.received.toList ++ q.asked := by
      intro q listens
      unfold PeerLoop.Listens at listens
      unfold PeerLoop.jobs
      split at listens <;> simp_all
    exact slot atI (by rw [silent listens, silent listens', received, asked])
  | takes atI selecting received => exact slot atI (by simp [PeerLoop.jobs, selecting, received])
  | orphaned atI selecting => exact slot atI (by simp [PeerLoop.jobs, selecting])
  | asks atI asking reason =>
    refine slot atI ?_
    rcases reason with rfl | rfl
    · simp only [PeerLoop.jobs, asking, List.count_append, Option.toList_none, List.count_nil]
      omega
    · simp only [PeerLoop.jobs, asking, List.count_append, Option.toList_none, List.count_nil]
      omega
  | leaves atI _ =>
    refine slot atI ?_
    simp only [PeerLoop.jobs, List.count_append, Option.toList_none, List.count_nil]
    omega

/-- In every interleaving of the chain watcher, the worker manager and any number of peers, each job
that the watcher sends from the front of its queue is asked of one peer at most; and as long as the
watcher has not panicked, no peer panics on its registration, and a peer that waits is registered
exactly once, or it has received its one job. -/
theorem dispatches_once {w : Chainman} {events : List DispatchEvent}
    (run : Run (Step p sha256 scripts) (start w) events s) :
    (∀ hash, (s.peers.flatMap (·.asked)).count hash ≤ s.ticked.count hash) ∧
      (s.watcher ≠ .ended → ∀ peer ∈ s.peers, peer.point ≠ .panicked) ∧
      ((s.registrations ++ s.workers).map (·.peer)).Nodup ∧
      (s.watcher ≠ .ended → ∀ i peer, s.peers[i]? = some peer → peer.Listens →
        (⟨i, peer.round⟩ ∈ s.registrations ++ s.workers ↔ peer.received = none)) := by
  have conserved : ∀ hash, s.underway.count hash ≤ s.ticked.count hash := by
    refine run.invariant (P := fun s => ∀ hash, s.underway.count hash ≤ s.ticked.count hash) ?_ ?_
    · simp [underway, start, WatcherPoint.job]
    · exact fun _ _ _ before step hash => (moves_of_step step).conserves hash (before hash)
  obtain ⟨registered, managed⟩ := sound_of_run run
  refine ⟨fun hash => ?_, fun alive => registered.calm (managed alive), registered.distinct,
    fun alive i peer atI listens => ?_⟩
  · have fewer := (asked_sublist_jobs s.peers).count_le hash
    have whole := conserved hash
    simp only [underway, List.count_append] at whole
    omega
  · refine ⟨fun member => ?_, registered.listed (managed alive) i peer atI listens⟩
    obtain ⟨found, atR, _, empty, _⟩ := registered.current _ member
    cases atI.symm.trans atR
    exact empty

/-- A peer announces a block, and is asked for it. -/
def oneJob : List DispatchEvent :=
  [.connects, .registers 0, .manages, .receives 0 (.headers [minedHeader]) ⟨false, false⟩, .gives 0, .gives 0,
    .newHeader, .ticks, .sendsJob, .dispatches fun _ => 0, .takesJob 0, .asks 0 ⟨false, false⟩]

def afterOneJob : Dispatch :=
  after (next .dev Sha256.sha256 quietScripts) (start startChainman) oneJob

theorem oneJob_run :
    Run (Step .dev Sha256.sha256 quietScripts) (start startChainman) oneJob afterOneJob :=
  Run.of_after (fun _ _ _ taken => taken) (by decide)

theorem dispatches_once_mined : afterOneJob.peers.flatMap (·.asked) = [minedHeader.hash] ∧
    (afterOneJob.peers.flatMap (·.asked)).count minedHeader.hash ≤ afterOneJob.ticked.count minedHeader.hash :=
  ⟨by decide, (dispatches_once oneJob_run).1 minedHeader.hash⟩

end Dispatch

end Bitlens

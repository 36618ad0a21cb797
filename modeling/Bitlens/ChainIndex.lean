import Bitlens.HeaderStep
import Bitlens.Lib.Run

namespace Bitlens
open Lib

/-- One call of `handle_new_header` that returns. -/
def HeaderStep (p : Profile) (s : Watcher) (header : BlockHeaderOwned) (t : Watcher) : Prop :=
  handleNewHeader p header s = (t, .ok ())

/-- The header is not made the new top, extends the top, or replaces the top by
a sibling of it: the branches that need no renumbering. -/
def KeepsIndex (p : Profile) (s : Watcher) (header : BlockHeaderOwned) : Prop :=
  ∀ new, s.chainman.chain.newHeader p header = .ok (some new) →
    s.chainman.chain.topHeader.totalWork ≤ new.totalWork →
      header.parent = s.chainman.chain.topHeader.header.hash ∨
        (s.chainman.chain.OnMain header.parent ∧
          s.chainman.chain.topHeader.number = s.chainman.chain.heightOf header.parent + 1)

namespace Chainman

variable {w : Chainman} {new : BlockHeaderWithNumber} {p : Profile}

/-- Indices that describe the path of the new header. -/
theorem Extends.indexed_setTop (grows : Extends w.chain new) (wf : w.chain.WellFormed)
    {set : Finset Hash} {map : Nat → Option Hash}
    (members : ∀ hash, hash ∈ set ↔ hash = new.header.hash ∨ Descends w.chain.parentOf new.header.parent hash)
    (numbers : ∀ n hash, map n = some hash ↔ (hash = new.header.hash ∧ n = new.number) ∨
      (Descends w.chain.parentOf new.header.parent hash ∧ w.chain.heightOf hash = n)) :
    Chain.Indexed { ((w.learn new).setTop new).chain with mostWorkChain := set, numberToHash := map } := by
  have onMain : ∀ hash, ((w.learn new).setTop new).chain.OnMain hash ↔
      hash = new.header.hash ∨ Descends w.chain.parentOf new.header.parent hash :=
    fun hash => grows.setTop_onMain wf
  obtain ⟨q, atParent, _⟩ := grows.parent
  have known : w.chain.Known new.header.parent := by simp [Chain.Known, atParent]
  refine ⟨fun hash => (members hash).trans (onMain hash).symm, fun n hash => (numbers n hash).trans ?_⟩
  have height : ∀ hash, Descends w.chain.parentOf new.header.parent hash →
      (w.learn new).chain.heightOf hash = w.chain.heightOf hash :=
    fun hash path => grows.learn_heightOf (wf.graded.descends known path).1
  constructor
  · rintro (⟨rfl, rfl⟩ | ⟨path, level⟩)
    · exact ⟨(onMain _).mpr (Or.inl rfl), grows.learn_heightOf_new⟩
    · exact ⟨(onMain _).mpr (Or.inr path), (height _ path).trans level⟩
  · rintro ⟨member, level⟩
    rcases (onMain _).mp member with rfl | path
    · exact Or.inl ⟨rfl, level.symm.trans grows.learn_heightOf_new⟩
    · exact Or.inr ⟨path, (height _ path).symm.trans level⟩

theorem Extends.indexed_of_extension (grows : Extends w.chain new) (wf : w.chain.WellFormed)
    (indexed : w.chain.Indexed) (atTop : new.header.parent = w.chain.topHeader.header.hash) :
    (((w.learn new).setTop new).chain.updateMostWorkChain ⟨[], [(new.header.hash, new.number)]⟩).Indexed := by
  have level : new.number = w.chain.topHeader.number + 1 := by
    obtain ⟨q, atParent, step⟩ := grows.parent
    rw [step, ← wf.top.heightOf, ← atTop, Chain.heightOf_of_known atParent]
  refine grows.indexed_setTop wf (fun hash => ?_) (fun n hash => ?_)
  · simp only [learn, setTop, List.foldl_cons, List.foldl_nil, Finset.mem_insert, indexed.members, Chain.OnMain, atTop]
  · simp only [learn, setTop, List.foldl_cons, List.foldl_nil]
    by_cases same : n = new.number
    · subst same
      have above : ∀ x, w.chain.OnMain x → w.chain.heightOf x ≠ new.number := by
        intro x member
        have := wf.onMain_height_le member
        omega
      rw [mapInsert_self, Option.some.injEq, atTop]
      constructor
      · intro equal
        exact Or.inl ⟨equal.symm, rfl⟩
      · rintro (⟨equal, _⟩ | ⟨path, height⟩)
        · exact equal.symm
        · exact absurd height (above _ path)
    · rw [mapInsert_of_ne same, indexed.numbers, atTop]
      simp [same, Chain.OnMain]

theorem Extends.parent_of_sibling (_grows : Extends w.chain new) (wf : w.chain.WellFormed)
    (member : w.chain.OnMain new.header.parent)
    (level : w.chain.topHeader.number = w.chain.heightOf new.header.parent + 1) :
    w.chain.parentOf w.chain.topHeader.header.hash = some new.header.parent ∧
      w.chain.topHeader.header.parent = new.header.parent := by
  have edge := wf.top.parentOf
  rw [if_neg (by omega)] at edge
  have onTop : w.chain.OnMain w.chain.topHeader.header.parent := Descends.of_parent edge
  obtain ⟨q, atParent, hash, holds, step⟩ := wf.parent_holds wf.top (by omega)
  have same : w.chain.topHeader.header.parent = new.header.parent := by
    refine wf.onMain_unique onTop member ?_
    rw [← hash, holds.heightOf]
    omega
  exact ⟨by rw [edge, same], same⟩

/-- A sibling of the top is reached by the fork walk after one step. -/
theorem Extends.forkWalk_of_sibling (grows : Extends w.chain new) (wf : w.chain.WellFormed)
    (member : w.chain.OnMain new.header.parent)
    (level : w.chain.topHeader.number = w.chain.heightOf new.header.parent + 1) :
    (w.learn new).chain.forkWalk p new (new.number - 1) =
      .ok ([(new.header.hash, new.number)],
        [(w.chain.topHeader.header.hash, w.chain.topHeader.number),
          (w.chain.topHeader.header.hash, w.chain.topHeader.number)]) := by
  obtain ⟨q, atParent, step⟩ := grows.parent
  rw [Chain.heightOf_of_known atParent] at level
  have sibling := (grows.parent_of_sibling wf member (by rw [Chain.heightOf_of_known atParent, level])).2
  obtain ⟨stored, atTop, header, number⟩ := wf.top
  have learnedTop : (w.learn new).chain.knownHeaders w.chain.topHeader.header.hash = some stored := by
    rw [learn_known_of_ne (grows.ne_of_known wf.top.known), atTop]
  have learnedParent : (w.learn new).chain.knownHeaders new.header.parent = some q := by
    rw [learn_known_of_ne grows.parent_ne, atParent]
  have differs : w.chain.topHeader.number ≠ new.number - 1 := by omega
  have arrived : q.number = new.number - 1 := by omega
  have align : (w.learn new).chain.alignOld p (new.number - 1) (w.chain.topHeader.number + 2)
      w.chain.topHeader.header.hash w.chain.topHeader.number
      [(w.chain.topHeader.header.hash, w.chain.topHeader.number)] =
      .ok (new.header.parent, w.chain.topHeader.number - 1,
        [(w.chain.topHeader.header.hash, w.chain.topHeader.number),
          (w.chain.topHeader.header.hash, w.chain.topHeader.number)]) := by
    rw [Chain.alignOld]
    simp only [learnedTop, Outcome.unwrap_some, Outcome.ok_bind, differs, if_false,
      Profile.sub_of_le (show 1 ≤ w.chain.topHeader.number by omega), header, number, sibling]
    rw [Chain.alignOld]
    simp [learnedParent, arrived]
  have sameTop : (w.learn new).chain.topHeader = w.chain.topHeader := rfl
  simp only [Chain.forkWalk, sameTop, align, Outcome.ok_bind]
  simp [Chain.stepBack]

theorem Extends.indexed_of_sibling (grows : Extends w.chain new) (wf : w.chain.WellFormed)
    (indexed : w.chain.Indexed) (member : w.chain.OnMain new.header.parent)
    (level : w.chain.topHeader.number = w.chain.heightOf new.header.parent + 1) :
    (((w.learn new).setTop new).chain.updateMostWorkChain
      ⟨[(w.chain.topHeader.header.hash, w.chain.topHeader.number),
        (w.chain.topHeader.header.hash, w.chain.topHeader.number)], [(new.header.hash, new.number)]⟩).Indexed := by
  obtain ⟨edge, _⟩ := grows.parent_of_sibling wf member level
  have newLevel : new.number = w.chain.topHeader.number := by
    obtain ⟨q, atParent, step⟩ := grows.parent
    rw [step, level, Chain.heightOf_of_known atParent]
  have onMain : ∀ hash, w.chain.OnMain hash ↔
      hash = w.chain.topHeader.header.hash ∨ Descends w.chain.parentOf new.header.parent hash :=
    fun hash => descends_iff_of_parent edge
  have known := wf.known_parent wf.top.known edge
  have below : ∀ hash, Descends w.chain.parentOf new.header.parent hash →
      w.chain.heightOf hash < w.chain.topHeader.number := by
    intro hash path
    have := (wf.graded.descends known path).2
    omega
  have topApart : ¬ Descends w.chain.parentOf new.header.parent w.chain.topHeader.header.hash := by
    intro path
    have := below _ path
    rw [wf.top.heightOf] at this
    omega
  refine grows.indexed_setTop wf (fun hash => ?_) (fun n hash => ?_)
  · simp only [learn, setTop, List.foldl_cons, List.foldl_nil, Finset.mem_insert, Finset.mem_erase,
      indexed.members, onMain]
    constructor
    · rintro (same | ⟨apart, _, same | path⟩)
      · exact Or.inl same
      · exact absurd same apart
      · exact Or.inr path
    · rintro (same | path)
      · exact Or.inl same
      · have apart : hash ≠ w.chain.topHeader.header.hash := by
          rintro rfl
          exact topApart path
        exact Or.inr ⟨apart, apart, Or.inr path⟩
  · simp only [learn, setTop, List.foldl_cons, List.foldl_nil]
    by_cases same : n = new.number
    · subst same
      rw [mapInsert_self, Option.some.injEq]
      constructor
      · intro equal
        exact Or.inl ⟨equal.symm, rfl⟩
      · rintro (⟨equal, _⟩ | ⟨path, height⟩)
        · exact equal.symm
        · have := below _ path
          omega
    · rw [mapInsert_of_ne same, indexed.numbers, onMain]
      constructor
      · rintro ⟨rfl | path, height⟩
        · rw [wf.top.heightOf] at height
          omega
        · exact Or.inr ⟨path, height⟩
      · rintro (⟨_, equal⟩ | ⟨path, height⟩)
        · exact absurd equal same
        · exact ⟨Or.inr path, height⟩

end Chainman

variable {p : Profile} {s t : Watcher} {header : BlockHeaderOwned}

/-- A header that only joins the tree leaves both indices right. -/
theorem Chainman.Extends.indexed_learn {w : Chainman} {new : BlockHeaderWithNumber}
    (grows : Chainman.Extends w.chain new) (wf : w.chain.WellFormed) (indexed : w.chain.Indexed) :
    (w.learn new).chain.Indexed := by
  refine ⟨fun hash => (indexed.members hash).trans (grows.learn_onMain wf).symm, fun n hash => ?_⟩
  refine (indexed.numbers n hash).trans ?_
  rw [grows.learn_onMain wf]
  refine and_congr_right fun member => ?_
  rw [grows.learn_heightOf (wf.known_of_onMain member)]

/-- The step lemma of the index invariant. -/
theorem HeaderStep.indexed (step : HeaderStep p s header t) (keeps : KeepsIndex p s header)
    (wf : s.chainman.chain.WellFormed) (indexed : s.chainman.chain.Indexed) :
    t.chainman.chain.WellFormed ∧ t.chainman.chain.Indexed := by
  unfold HeaderStep handleNewHeader at step
  split at step
  · cases step; exact ⟨wf, indexed⟩
  split at step
  · cases step; exact ⟨wf, indexed⟩
  cases result : s.chainman.chain.newHeader p header with
  | err => simp only [Chainman.validateAndApplyHeaderInner, result] at step; cases step; exact ⟨wf, indexed⟩
  | fault => simp only [Chainman.validateAndApplyHeaderInner, result] at step; cases step
  | ok found =>
    cases found with
    | none => simp only [Chainman.validateAndApplyHeaderInner, result] at step; cases step; exact ⟨wf, indexed⟩
    | some new =>
      obtain ⟨grows, same⟩ := Chainman.extends_of_newHeader result
      subst same
      by_cases light : new.totalWork < s.chainman.chain.topHeader.totalWork
      · simp only [Chainman.validateAndApplyHeaderInner, result, light, if_true] at step
        cases step
        exact ⟨grows.learn_wellFormed wf, grows.indexed_learn wf indexed⟩
      simp only [Chainman.validateAndApplyHeaderInner, result, light, if_false, Bool.false_eq_true] at step
      have wfTop := grows.setTop_wellFormed wf
      rcases keeps new result (by omega) with atTop | ⟨member, level⟩
      · have learnedTop : new.header.parent = (s.chainman.learn new).chain.topHeader.header.hash := atTop
        simp only [Chainman.applyNewTop, learnedTop, if_true, entriesFor, List.length_singleton] at step
        cases step
        exact ⟨⟨wfTop.keyed, wfTop.parents, wfTop.top⟩, grows.indexed_of_extension wf indexed atTop⟩
      · have apart : new.header.parent ≠ (s.chainman.learn new).chain.topHeader.header.hash := by
          intro atTop
          have := wf.top.heightOf
          rw [show s.chainman.chain.topHeader.header.hash = new.header.parent from atTop.symm] at this
          omega
        simp only [Chainman.applyNewTop, apart, if_false, grows.forkWalk_of_sibling wf member level] at step
        cases count : ((s.chainman.learn new).setTop new).chain.calculateDownloadedBlocks with
        | err => simp only [count] at step; cases step
        | fault => simp only [count] at step; cases step
        | ok value =>
          simp only [count, entriesFor, List.reverse_singleton, List.length_singleton, if_true] at step
          cases step
          exact ⟨⟨wfTop.keyed, wfTop.parents, wfTop.top⟩, grows.indexed_of_sibling wf indexed member level⟩

/-- Along every run of headers that each keep the index, both maps describe the
path of the current top header. -/
theorem index_of_run {c : Chain} {headers : List BlockHeaderOwned} (wf : c.WellFormed)
    (built : c.generateTopWorkChainHashset = .ok s.chainman.chain)
    (run : Run (Guarded (KeepsIndex p) (HeaderStep p)) s headers t) : t.chainman.chain.Indexed := by
  obtain ⟨set, map, result, indexed⟩ := wf.generateTopWorkChainHashset
  have same : s.chainman.chain = { c with mostWorkChain := set, numberToHash := map } :=
    Outcome.ok.inj (built.symm.trans result)
  have base : s.chainman.chain.WellFormed ∧ s.chainman.chain.Indexed := by
    rw [same]
    exact ⟨⟨wf.keyed, wf.parents, wf.top⟩, indexed⟩
  have final := run.invariant (P := fun u => u.chainman.chain.WellFormed ∧ u.chainman.chain.Indexed) base
    fun _ _ _ kept guarded => guarded.2.indexed guarded.1 kept.1 kept.2
  exact final.2

/-! A three-header fork. -/

def sampleHash (name : UInt8) : Hash := ByteArr.fill 32 name

def sampleHeader (name parent : UInt8) : BlockHeaderOwned where
  version := 1
  parent := sampleHash parent
  merkleRoot := emptyHash
  timestamp := 0
  bits := 0x1d00ffff
  nonce := 0
  txsCount := 1
  hash := sampleHash name

def sampleGenesis : BlockHeaderWithNumber := ⟨sampleHeader 1 0, 0, true, 4295032833, none⟩

def sampleChain : Chain where
  topHeader := sampleGenesis
  knownHeaders := mapInsert (fun _ => none) (sampleHash 1) sampleGenesis
  numberToHash := fun _ => none
  mostWorkChain := ∅

theorem sampleChain_known {hash : Hash} {b : BlockHeaderWithNumber}
    (stored : sampleChain.knownHeaders hash = some b) : hash = sampleHash 1 ∧ b = sampleGenesis := by
  by_cases same : hash = sampleHash 1
  · subst same
    exact ⟨rfl, (Option.some.inj stored).symm⟩
  · simp [sampleChain, mapInsert_of_ne same] at stored

theorem sampleChain_wellFormed : sampleChain.WellFormed := by
  refine ⟨?_, ?_, ⟨sampleGenesis, rfl, rfl, rfl⟩⟩
  · intro hash b stored
    obtain ⟨rfl, rfl⟩ := sampleChain_known stored
    rfl
  · intro hash b stored positive
    obtain ⟨rfl, rfl⟩ := sampleChain_known stored
    exact absurd rfl positive

def sampleIndexed : Chain :=
  { sampleChain with
    mostWorkChain := insert (sampleHash 1) ∅
    numberToHash := mapInsert (fun _ => none) 0 (sampleHash 1) }

/-- The state after handling some headers, whether or not the calls return. -/
def afterHeaders (p : Profile) (s : Watcher) (headers : List BlockHeaderOwned) : Watcher :=
  headers.foldl (fun s header => (handleNewHeader p header s).1) s

def sampleWatcher : Watcher := ⟨⟨sampleIndexed, 1, []⟩, []⟩

theorem headerStep_of_ok (result : (handleNewHeader p header s).2 = .ok ()) :
    HeaderStep p s header (afterHeaders p s [header]) :=
  Prod.ext rfl result

theorem sampleIndexed_built : sampleChain.generateTopWorkChainHashset = .ok sampleWatcher.chainman.chain := rfl

/-- A header on the genesis top, replaced by its sibling. -/
theorem index_of_run_sibling :
    (afterHeaders .dev sampleWatcher [sampleHeader 2 1, sampleHeader 3 1]).chainman.chain.Indexed := by
  suffices run : Run (Guarded (KeepsIndex .dev) (HeaderStep .dev)) sampleWatcher [sampleHeader 2 1, sampleHeader 3 1]
      (afterHeaders .dev sampleWatcher [sampleHeader 2 1, sampleHeader 3 1]) from
    index_of_run sampleChain_wellFormed sampleIndexed_built run
  refine .cons (t := afterHeaders .dev sampleWatcher [sampleHeader 2 1]) ⟨?_, headerStep_of_ok (by decide)⟩
    (.single ⟨?_, headerStep_of_ok (s := afterHeaders .dev sampleWatcher [sampleHeader 2 1]) (by decide)⟩)
  · exact fun _ _ _ => Or.inl rfl
  · intro _ _ _
    refine Or.inr ⟨Descends.of_parent (by decide), by decide⟩

/-- Three headers, a sibling of the last one, and a header on the branch left behind. -/
def sampleFork : List BlockHeaderOwned := [sampleHeader 2 1, sampleHeader 3 2, sampleHeader 4 2, sampleHeader 5 3]

/-- A branch of two headers overtakes a branch of one: height 2 keeps the block
that was left behind. -/
theorem index_of_run_fails :
    ¬ ∀ (p : Profile) (c : Chain) (s t : Watcher) (headers : List BlockHeaderOwned), c.WellFormed →
      c.generateTopWorkChainHashset = .ok s.chainman.chain → Run (HeaderStep p) s headers t →
        t.chainman.chain.Indexed := by
  intro claim
  have run : Run (HeaderStep .dev) sampleWatcher sampleFork (afterHeaders .dev sampleWatcher sampleFork) :=
    .cons (headerStep_of_ok (by decide))
      (.cons (headerStep_of_ok (s := afterHeaders .dev sampleWatcher (sampleFork.take 1)) (by decide))
        (.cons (headerStep_of_ok (s := afterHeaders .dev sampleWatcher (sampleFork.take 2)) (by decide))
          (.single (headerStep_of_ok (s := afterHeaders .dev sampleWatcher (sampleFork.take 3)) (by decide)))))
  have indexed := claim _ _ _ _ _ sampleChain_wellFormed sampleIndexed_built run
  obtain ⟨path, _⟩ := (indexed.numbers 2 (sampleHash 4)).mp (by decide)
  have edge : ∀ name parent, (afterHeaders .dev sampleWatcher sampleFork).chainman.chain.parentOf (sampleHash name) =
      some (sampleHash parent) → sampleHash 4 ≠ sampleHash name →
        Descends (afterHeaders .dev sampleWatcher sampleFork).chainman.chain.parentOf (sampleHash name) (sampleHash 4) →
          Descends (afterHeaders .dev sampleWatcher sampleFork).chainman.chain.parentOf (sampleHash parent)
            (sampleHash 4) :=
    fun _ _ edge apart path => ((descends_iff_of_parent edge).mp path).resolve_left apart
  have bottom := edge 2 1 (by decide) (by decide) (edge 3 2 (by decide) (by decide)
    (edge 5 3 (by decide) (by decide) path))
  exact absurd ((descends_iff_of_root (by decide)).mp bottom) (by decide)

end Bitlens

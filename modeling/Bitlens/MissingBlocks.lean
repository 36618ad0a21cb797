import Bitlens.Marking
import Bitlens.TopHeader

namespace Bitlens
open Lib

/-- The main-chain blocks that are not fetched in full, lowest first. -/
structure Chain.Missing (c : Chain) (hashes : List Hash) (first : Nat) : Prop where
  nonempty : hashes ≠ []
  members : ∀ hash, hash ∈ hashes ↔ c.OnMain hash ∧ ¬ c.Fetched hash
  heights : ∀ (i : Nat) hash, hashes[i]? = some hash → c.OnMain hash ∧ c.heightOf hash = first + i

/-- Where the walk down from `b` ends: at genesis, or above a fetched block. -/
def Chain.Bottom (c : Chain) (b : BlockHeaderWithNumber) (lowest : Nat) : Prop :=
  lowest = 0 ∨ ∃ hash, Descends c.parentOf b.header.hash hash ∧ c.Fetched hash ∧ c.heightOf hash + 1 = lowest

namespace Chain

variable {c : Chain}

theorem fetched_iff_of_known {hash : Hash} {b : BlockHeaderWithNumber} (stored : c.knownHeaders hash = some b) :
    c.Fetched hash ↔ b.fetchedFull = true := by
  constructor
  · rintro ⟨d, atHash, flag⟩
    cases Option.some.inj (stored.symm.trans atHash)
    exact flag
  · intro flag
    exact ⟨b, stored, flag⟩

/-- The walk collects the path from `b`, `b` first, and only its first node can be
fetched. -/
theorem WellFormed.getBlockHashesLoop (wf : c.WellFormed) (fuel : Nat) (b : BlockHeaderWithNumber) (all : List Hash)
    (holds : c.Holds b) (enough : b.number < fuel) :
    ∃ nodes lowest, Chainman.getBlockHashesLoop c fuel b all = .ok (all ++ nodes, lowest) ∧
      lowest + nodes.length = b.number + 1 ∧ c.Bottom b lowest ∧
      (∀ (i : Nat) hash, nodes[i]? = some hash → Descends c.parentOf b.header.hash hash ∧ c.heightOf hash + i = b.number) ∧
      ∀ hash ∈ nodes, hash = b.header.hash ∨ ¬ c.Fetched hash := by
  induction fuel generalizing b all with
  | zero => omega
  | succ fuel ih =>
    have here : ∀ (i : Nat) hash, [b.header.hash][i]? = some hash →
        Descends c.parentOf b.header.hash hash ∧ c.heightOf hash + i = b.number := by
      intro i hash found
      obtain ⟨rfl, rfl⟩ : i = 0 ∧ b.header.hash = hash := by
        cases i with
        | zero => exact ⟨rfl, Option.some.inj found⟩
        | succ i => simp at found
      exact ⟨.refl _, holds.heightOf⟩
    have alone : ∀ hash ∈ [b.header.hash], hash = b.header.hash ∨ ¬ c.Fetched hash :=
      fun hash member => Or.inl (List.mem_singleton.mp member)
    rw [Chainman.getBlockHashesLoop]
    by_cases bottom : b.number = 0
    · rw [if_pos bottom]
      exact ⟨[b.header.hash], b.number, rfl, by simp, Or.inl bottom, here, alone⟩
    obtain ⟨q, atParent, name, holdsQ, step⟩ := wf.parent_holds holds bottom
    have edge : c.parentOf b.header.hash = some q.header.hash := by rw [holds.parentOf, if_neg bottom, name]
    rw [if_neg bottom, atParent]
    dsimp only
    rw [← name] at atParent
    by_cases flag : q.fetchedFull = true
    · rw [if_pos flag]
      refine ⟨[b.header.hash], b.number, rfl, by simp, Or.inr ⟨q.header.hash, .of_parent edge, ?_, ?_⟩, here, alone⟩
      · exact ⟨q, atParent, flag⟩
      · rw [holdsQ.heightOf, step]
    · rw [if_neg flag]
      obtain ⟨nodes, lowest, result, length, ends, path, clear⟩ :=
        ih q (all ++ [b.header.hash]) holdsQ (by omega)
      refine ⟨b.header.hash :: nodes, lowest, ?_, ?_, ?_, ?_, ?_⟩
      · rw [result, List.append_assoc]
        rfl
      · rw [List.length_cons]
        omega
      · rcases ends with genesis | ⟨hash, below, fetched, level⟩
        · exact Or.inl genesis
        · exact Or.inr ⟨hash, .head edge below, fetched, level⟩
      · intro i hash found
        cases i with
        | zero => exact here 0 hash found
        | succ i =>
          obtain ⟨below, level⟩ := path i hash found
          exact ⟨.head edge below, by omega⟩
      · intro hash member
        rcases List.mem_cons.mp member with same | later
        · exact Or.inl same
        · rcases clear hash later with same | missing
          · rw [same, fetched_iff_of_known atParent]
            exact Or.inr flag
          · exact Or.inr missing

/-- The top counts among the downloaded blocks exactly when it is fetched. -/
theorem WellFormed.calculateDownloadedBlocksLoop_le (wf : c.WellFormed) (fuel : Nat) (b : BlockHeaderWithNumber)
    {count : Nat} (holds : c.Holds b) (result : c.calculateDownloadedBlocksLoop fuel b = .ok count) :
    count ≤ b.number + 1 ∧ (b.number < count ↔ b.fetchedFull = true) := by
  induction fuel generalizing b with
  | zero => cases result
  | succ fuel ih =>
    rw [Chain.calculateDownloadedBlocksLoop] at result
    by_cases flag : b.fetchedFull = true
    · rw [if_pos flag] at result
      cases result
      exact ⟨Nat.le_refl _, by simp [flag]⟩
    rw [if_neg flag] at result
    by_cases bottom : b.number = 0
    · rw [if_pos bottom] at result
      cases result
      exact ⟨Nat.zero_le _, by simp [flag]⟩
    · obtain ⟨q, atParent, _, holdsQ, step⟩ := wf.parent_holds holds bottom
      rw [if_neg bottom, atParent, Outcome.unwrap_some, Outcome.ok_bind] at result
      have below := (ih q holdsQ result).1
      exact ⟨by omega, fun more => by omega, fun raised => absurd raised flag⟩

/-- The walk down from the top collects every main-chain block that is not below it. -/
theorem WellFormed.mem_walk (wf : c.WellFormed) {nodes : List Hash} {lowest : Nat}
    (length : lowest + nodes.length = c.topHeader.number + 1)
    (path : ∀ (i : Nat) hash, nodes[i]? = some hash → c.OnMain hash ∧ c.heightOf hash + i = c.topHeader.number)
    {hash : Hash} (onMain : c.OnMain hash) (above : lowest ≤ c.heightOf hash) : hash ∈ nodes := by
  have upper := wf.onMain_height_le onMain
  have inside : c.topHeader.number - c.heightOf hash < nodes.length := by omega
  -- the block at the same height of the walk is the same block
  obtain ⟨other, level⟩ := path _ _ (List.getElem?_eq_getElem inside)
  rw [wf.onMain_unique onMain other (by omega)]
  exact List.getElem_mem inside

theorem WellFormed.fetched_below (wf : c.WellFormed)
    (closed : ∀ x y, c.Fetched x → Descends c.parentOf x y → c.Fetched y) {lowest : Nat}
    (ends : c.Bottom c.topHeader lowest) {hash : Hash} (onMain : c.OnMain hash) (lower : c.heightOf hash < lowest) :
    c.Fetched hash := by
  rcases ends with genesis | ⟨stop, onStop, fetched, level⟩
  · omega
  · rcases onStop.comparable onMain with down | up
    · exact closed _ _ fetched down
    · have known := wf.known_of_onMain onMain
      have order := (wf.graded.descends known up).2
      rw [← wf.graded.eq_of_descends known up (by omega)]
      exact fetched

end Chain

namespace Chainman

variable {w : Chainman}

theorem missing_of_walk (wf : w.chain.WellFormed)
    (closed : ∀ x y, w.chain.Fetched x → Descends w.chain.parentOf x y → w.chain.Fetched y)
    (unfetched : ¬ w.chain.Fetched w.chain.topHeader.header.hash) {nodes : List Hash} {lowest : Nat}
    (length : lowest + nodes.length = w.chain.topHeader.number + 1) (ends : w.chain.Bottom w.chain.topHeader lowest)
    (path : ∀ (i : Nat) hash, nodes[i]? = some hash →
      w.chain.OnMain hash ∧ w.chain.heightOf hash + i = w.chain.topHeader.number)
    (clear : ∀ hash ∈ nodes, hash = w.chain.topHeader.header.hash ∨ ¬ w.chain.Fetched hash) :
    w.chain.Missing nodes.reverse lowest := by
  have lowest_le : lowest ≤ w.chain.topHeader.number := by
    rcases ends with genesis | ⟨hash, below, fetched, level⟩
    · omega
    · have upper := wf.onMain_height_le below
      rcases Nat.lt_or_eq_of_le upper with less | same
      · omega
      · have top := wf.onMain_unique below (.refl _) (by rw [same, wf.top.heightOf])
        exact absurd (top ▸ fetched) unfetched
  refine ⟨?_, ?_, ?_⟩
  · rw [ne_eq, List.reverse_eq_nil_iff]
    rintro rfl
    simp only [List.length_nil] at length
    omega
  · intro hash
    rw [List.mem_reverse]
    constructor
    · intro member
      obtain ⟨i, found⟩ := List.mem_iff_getElem?.mp member
      refine ⟨(path i hash found).1, ?_⟩
      rcases clear hash member with same | missing
      · rw [same]
        exact unfetched
      · exact missing
    · intro ⟨onMain, missing⟩
      refine wf.mem_walk length path onMain ?_
      by_contra lower
      exact missing (wf.fetched_below closed ends onMain (Nat.lt_of_not_le lower))
  · intro i hash found
    have inside : i < nodes.length := by
      have bound := (List.getElem?_eq_some_iff.mp found).1
      rwa [List.length_reverse] at bound
    rw [List.getElem?_reverse inside] at found
    obtain ⟨onMain, level⟩ := path _ _ found
    exact ⟨onMain, by omega⟩

/-- `get_block_hashes_to_download` answers with the missing part of the main chain. -/
theorem getBlockHashesToDownload_spec (wf : w.chain.WellFormed)
    (closed : ∀ x y, w.chain.Fetched x → Descends w.chain.parentOf x y → w.chain.Fetched y)
    (agrees : ∀ stored, w.chain.knownHeaders w.chain.topHeader.header.hash = some stored →
      stored.fetchedFull = w.chain.topHeader.fetchedFull)
    (computed : w.chain.calculateDownloadedBlocks = .ok w.downloadedBlocks) :
    ∃ answer, w.getBlockHashesToDownload = .ok answer ∧
      (answer = none ↔ w.chain.Fetched w.chain.topHeader.header.hash) ∧
      ∀ hashes first, answer = some (hashes, first) → w.chain.Missing hashes first := by
  have fetched_top : w.chain.Fetched w.chain.topHeader.header.hash ↔ w.chain.topHeader.fetchedFull = true := by
    obtain ⟨stored, atTop, _⟩ := wf.top
    rw [Chain.fetched_iff_of_known atTop, agrees stored atTop]
  have counted := (wf.calculateDownloadedBlocksLoop_le _ _ wf.top computed).2
  unfold getBlockHashesToDownload
  by_cases all : w.downloadedBlocks > w.chain.topHeader.number
  · rw [if_pos all]
    refine ⟨none, rfl, ?_, by simp⟩
    rw [fetched_top, ← counted]
    simpa using all
  · rw [if_neg all]
    have unfetched : ¬ w.chain.Fetched w.chain.topHeader.header.hash := by rwa [fetched_top, ← counted]
    obtain ⟨nodes, lowest, result, length, ends, path, clear⟩ :=
      wf.getBlockHashesLoop (w.chain.topHeader.number + 1) w.chain.topHeader [] wf.top (Nat.lt_succ_self _)
    rw [result]
    refine ⟨some (nodes.reverse, lowest), rfl, by simpa using unfetched, ?_⟩
    intro hashes first same
    cases same
    exact missing_of_walk wf closed unfetched length ends path clear

end Chainman

/-! Two headers on a fetched genesis. -/

def sampleFirst : BlockHeaderWithNumber := ⟨sampleHeader 2 1, 1, false, 8590065666, none⟩

def sampleSecond : BlockHeaderWithNumber := ⟨sampleHeader 3 2, 2, false, 12885098499, none⟩

def sampleBranch : Chain where
  topHeader := sampleSecond
  knownHeaders := mapInsert (mapInsert sampleChain.knownHeaders (sampleHash 2) sampleFirst) (sampleHash 3) sampleSecond
  numberToHash := mapInsert (mapInsert (mapInsert (fun _ => none) 0 (sampleHash 1)) 1 (sampleHash 2)) 2 (sampleHash 3)
  mostWorkChain := {sampleHash 1, sampleHash 2, sampleHash 3}

theorem sampleBranch_known {hash : Hash} {b : BlockHeaderWithNumber} (stored : sampleBranch.knownHeaders hash = some b) :
    (hash = sampleHash 3 ∧ b = sampleSecond) ∨ (hash = sampleHash 2 ∧ b = sampleFirst) ∨
      (hash = sampleHash 1 ∧ b = sampleGenesis) := by
  by_cases third : hash = sampleHash 3
  · subst third
    exact Or.inl ⟨rfl, (Option.some.inj stored).symm⟩
  by_cases second : hash = sampleHash 2
  · subst second
    exact Or.inr (Or.inl ⟨rfl, (Option.some.inj stored).symm⟩)
  · change mapInsert (mapInsert sampleChain.knownHeaders (sampleHash 2) sampleFirst) (sampleHash 3) sampleSecond hash =
      some b at stored
    rw [mapInsert_of_ne third, mapInsert_of_ne second] at stored
    exact Or.inr (Or.inr (sampleChain_known stored))

theorem sampleBranch_wellFormed : sampleBranch.WellFormed := by
  refine ⟨?_, ?_, ⟨sampleSecond, rfl, rfl, rfl⟩⟩
  · intro hash b stored
    rcases sampleBranch_known stored with ⟨rfl, rfl⟩ | ⟨rfl, rfl⟩ | ⟨rfl, rfl⟩ <;> rfl
  · intro hash b stored positive
    rcases sampleBranch_known stored with ⟨rfl, rfl⟩ | ⟨rfl, rfl⟩ | ⟨rfl, rfl⟩
    · exact ⟨sampleFirst, rfl, rfl⟩
    · exact ⟨sampleGenesis, rfl, rfl⟩
    · exact absurd rfl positive

theorem sampleBranch_onMain {hash : Hash} :
    sampleBranch.OnMain hash ↔ hash = sampleHash 3 ∨ hash = sampleHash 2 ∨ hash = sampleHash 1 := by
  have third : sampleBranch.parentOf (sampleHash 3) = some (sampleHash 2) := rfl
  have second : sampleBranch.parentOf (sampleHash 2) = some (sampleHash 1) := rfl
  have root : sampleBranch.parentOf (sampleHash 1) = none := rfl
  change Descends sampleBranch.parentOf (sampleHash 3) hash ↔ _
  rw [descends_iff_of_parent third, descends_iff_of_parent second, descends_iff_of_root root]

theorem sampleBranch_fetched {hash : Hash} (fetched : sampleBranch.Fetched hash) : hash = sampleHash 1 := by
  obtain ⟨b, stored, flag⟩ := fetched
  rcases sampleBranch_known stored with ⟨rfl, rfl⟩ | ⟨rfl, rfl⟩ | ⟨rfl, rfl⟩
  · cases flag
  · cases flag
  · rfl

theorem getBlockHashesToDownload_spec_branch :
    ∃ answer, Chainman.getBlockHashesToDownload ⟨sampleBranch, 1, []⟩ = .ok answer ∧
      (answer = none ↔ sampleBranch.Fetched (sampleHash 3)) ∧
      ∀ hashes first, answer = some (hashes, first) → sampleBranch.Missing hashes first := by
  have root : sampleBranch.parentOf (sampleHash 1) = none := rfl
  refine @Chainman.getBlockHashesToDownload_spec ⟨sampleBranch, 1, []⟩ sampleBranch_wellFormed ?_ ?_ rfl
  · intro x y fetched path
    cases sampleBranch_fetched fetched
    rw [(descends_iff_of_root root).mp path]
    exact fetched
  · intro stored atTop
    rcases sampleBranch_known atTop with ⟨_, rfl⟩ | ⟨absent, _⟩ | ⟨absent, _⟩
    · rfl
    · exact absurd absent (by decide)
    · exact absurd absent (by decide)

end Bitlens

import Mathlib.Tactic
import Bitlens.Chain

namespace Bitlens
open Lib

namespace Chain

/-- The parent pointer of a known header; genesis, at height zero, has none. -/
def parentOf (c : Chain) (hash : Hash) : Option Hash :=
  (c.knownHeaders hash).bind fun b => if b.number = 0 then none else some b.header.parent

def heightOf (c : Chain) (hash : Hash) : Nat :=
  ((c.knownHeaders hash).map (·.number)).getD 0

def Known (c : Chain) (hash : Hash) : Prop := (c.knownHeaders hash).isSome

/-- The stored record of `b.header.hash` agrees with `b` on header and height. -/
def Holds (c : Chain) (b : BlockHeaderWithNumber) : Prop :=
  ∃ stored, c.knownHeaders b.header.hash = some stored ∧ stored.header = b.header ∧ stored.number = b.number

/-- Headers are stored under their own hash, every header but genesis has its
parent stored one height below, and the top header is stored. -/
structure WellFormed (c : Chain) : Prop where
  keyed : ∀ hash b, c.knownHeaders hash = some b → b.header.hash = hash
  parents : ∀ hash b, c.knownHeaders hash = some b → b.number ≠ 0 →
    ∃ q, c.knownHeaders b.header.parent = some q ∧ b.number = q.number + 1
  top : c.Holds c.topHeader

/-- On the parent path from the top header down to genesis. -/
def OnMain (c : Chain) (hash : Hash) : Prop :=
  Descends c.parentOf c.topHeader.header.hash hash

/-- The main-chain index invariant. -/
structure Indexed (c : Chain) : Prop where
  members : ∀ hash, hash ∈ c.mostWorkChain ↔ c.OnMain hash
  numbers : ∀ n hash, c.numberToHash n = some hash ↔ c.OnMain hash ∧ c.heightOf hash = n

variable {c : Chain}

theorem parentOf_of_known {hash : Hash} {b : BlockHeaderWithNumber} (stored : c.knownHeaders hash = some b) :
    c.parentOf hash = if b.number = 0 then none else some b.header.parent := by
  simp [parentOf, stored]

theorem heightOf_of_known {hash : Hash} {b : BlockHeaderWithNumber} (stored : c.knownHeaders hash = some b) :
    c.heightOf hash = b.number := by
  simp [heightOf, stored]

theorem Holds.parentOf {b : BlockHeaderWithNumber} (holds : c.Holds b) :
    c.parentOf b.header.hash = if b.number = 0 then none else some b.header.parent := by
  obtain ⟨stored, atHash, header, number⟩ := holds
  rw [parentOf_of_known atHash, header, number]

theorem Holds.heightOf {b : BlockHeaderWithNumber} (holds : c.Holds b) : c.heightOf b.header.hash = b.number := by
  obtain ⟨stored, atHash, _, number⟩ := holds
  rw [heightOf_of_known atHash, number]

theorem Holds.known {b : BlockHeaderWithNumber} (holds : c.Holds b) : c.Known b.header.hash := by
  obtain ⟨stored, atHash, _⟩ := holds
  simp [Known, atHash]

theorem WellFormed.holds_of_known (wf : c.WellFormed) {hash : Hash} {b : BlockHeaderWithNumber}
    (stored : c.knownHeaders hash = some b) : c.Holds b :=
  ⟨b, by rw [wf.keyed _ _ stored, stored], rfl, rfl⟩

theorem WellFormed.parent_holds (wf : c.WellFormed) {b : BlockHeaderWithNumber} (holds : c.Holds b)
    (positive : b.number ≠ 0) :
    ∃ q, c.knownHeaders b.header.parent = some q ∧ q.header.hash = b.header.parent ∧ c.Holds q ∧
      b.number = q.number + 1 := by
  obtain ⟨stored, atHash, header, number⟩ := holds
  obtain ⟨q, atParent, step⟩ := wf.parents _ _ atHash (by omega)
  rw [header] at atParent
  exact ⟨q, atParent, wf.keyed _ _ atParent, wf.holds_of_known atParent, by omega⟩

/-- Heights are the library's grading of the header forest. -/
theorem graded_of_parents (parents : ∀ hash b, c.knownHeaders hash = some b → b.number ≠ 0 →
    ∃ q, c.knownHeaders b.header.parent = some q ∧ b.number = q.number + 1) :
    GradedOn c.Known c.parentOf c.heightOf := by
  intro x y member edge
  obtain ⟨b, atX⟩ := Option.isSome_iff_exists.mp member
  rw [parentOf_of_known atX] at edge
  split at edge
  · cases edge
  · next positive =>
    obtain ⟨q, atParent, step⟩ := parents _ _ atX positive
    cases Option.some.inj edge
    refine ⟨by simp [Known, atParent], ?_⟩
    rw [heightOf_of_known atX, heightOf_of_known atParent, step]

theorem WellFormed.graded (wf : c.WellFormed) : GradedOn c.Known c.parentOf c.heightOf :=
  graded_of_parents wf.parents

theorem WellFormed.known_parent (wf : c.WellFormed) {x y : Hash} (member : c.Known x)
    (edge : c.parentOf x = some y) : c.Known y :=
  (wf.graded _ _ member edge).1

theorem WellFormed.known_of_onMain (wf : c.WellFormed) {hash : Hash} (member : c.OnMain hash) : c.Known hash :=
  (wf.graded.descends wf.top.known member).1

theorem WellFormed.onMain_height_le (wf : c.WellFormed) {hash : Hash} (member : c.OnMain hash) :
    c.heightOf hash ≤ c.topHeader.number := by
  rw [← wf.top.heightOf]
  exact (wf.graded.descends wf.top.known member).2

theorem WellFormed.onMain_unique (wf : c.WellFormed) {x y : Hash} (first : c.OnMain x) (second : c.OnMain y)
    (level : c.heightOf x = c.heightOf y) : x = y :=
  wf.graded.unique wf.top.known first second level

/-- What the loop of `generate_top_work_chain_hashset` adds from one header down. -/
theorem WellFormed.generateTopWorkChainLoop (wf : c.WellFormed) (fuel : Nat) (b : BlockHeaderWithNumber)
    (hashset : Finset Hash) (numberToHash : Nat → Option Hash) (holds : c.Holds b) (enough : b.number < fuel) :
    ∃ set map, c.generateTopWorkChainLoop fuel b hashset numberToHash = .ok (set, map) ∧
      (∀ hash, hash ∈ set ↔ hash ∈ hashset ∨ Descends c.parentOf b.header.hash hash) ∧
      (∀ n hash, map n = some hash ↔
        (Descends c.parentOf b.header.hash hash ∧ c.heightOf hash = n) ∨
          (b.number < n ∧ numberToHash n = some hash)) := by
  induction fuel generalizing b hashset numberToHash with
  | zero => omega
  | succ fuel ih =>
    by_cases genesis : b.number = 0
    · have root : c.parentOf b.header.hash = none := by rw [holds.parentOf, if_pos genesis]
      refine ⟨_, _, by rw [Chain.generateTopWorkChainLoop]; simp only [genesis, if_true]; rfl, ?_, ?_⟩
      · intro hash
        rw [descends_iff_of_root root, Finset.mem_insert, or_comm]
      · intro n hash
        rw [descends_iff_of_root root]
        by_cases zero : n = 0
        · subst zero
          simp only [mapInsert_self, Option.some.injEq, genesis, Nat.lt_irrefl, false_and, or_false]
          constructor
          · rintro rfl
            exact ⟨rfl, by rw [holds.heightOf, genesis]⟩
          · rintro ⟨rfl, _⟩
            rfl
        · rw [mapInsert_of_ne zero]
          constructor
          · intro entry
            exact Or.inr ⟨by omega, entry⟩
          · rintro (⟨rfl, level⟩ | ⟨_, entry⟩)
            · exact absurd (by rw [← level, holds.heightOf, genesis]) zero
            · exact entry
    · obtain ⟨q, atParent, hash_q, holdsQ, step⟩ := wf.parent_holds holds genesis
      have edge : c.parentOf b.header.hash = some q.header.hash := by
        rw [holds.parentOf, if_neg genesis, hash_q]
      obtain ⟨set, map, result, inSet, inMap⟩ := ih q (insert b.header.hash hashset)
        (mapInsert numberToHash b.number b.header.hash) holdsQ (by omega)
      refine ⟨set, map, ?_, ?_, ?_⟩
      · rw [Chain.generateTopWorkChainLoop]
        simp only [genesis, if_false, atParent, Outcome.unwrap_some, Outcome.ok_bind, result]
      · intro hash
        rw [inSet, descends_iff_of_parent edge, Finset.mem_insert]
        tauto
      · intro n hash
        rw [inMap, descends_iff_of_parent edge]
        constructor
        · rintro (⟨path, level⟩ | ⟨above, entry⟩)
          · exact Or.inl ⟨Or.inr path, level⟩
          · by_cases same : n = b.number
            · subst same
              rw [mapInsert_self, Option.some.injEq] at entry
              subst entry
              exact Or.inl ⟨Or.inl rfl, holds.heightOf⟩
            · rw [mapInsert_of_ne same] at entry
              exact Or.inr ⟨by omega, entry⟩
        · rintro (⟨rfl | path, level⟩ | ⟨above, entry⟩)
          · right
            rw [holds.heightOf] at level
            subst level
            exact ⟨by omega, mapInsert_self _ _ _⟩
          · exact Or.inl ⟨path, level⟩
          · right
            rw [mapInsert_of_ne (by omega)]
            exact ⟨by omega, entry⟩

/-- `generate_top_work_chain_hashset` returns on every well-formed chain and
establishes the index invariant. -/
theorem WellFormed.generateTopWorkChainHashset (wf : c.WellFormed) :
    ∃ set map, c.generateTopWorkChainHashset = .ok { c with mostWorkChain := set, numberToHash := map } ∧
      Indexed { c with mostWorkChain := set, numberToHash := map } := by
  obtain ⟨set, map, result, inSet, inMap⟩ := wf.generateTopWorkChainLoop (c.topHeader.number + 1) c.topHeader ∅
    (fun _ => none) wf.top (Nat.lt_succ_self _)
  refine ⟨set, map, ?_, ?_, ?_⟩
  · simp only [Chain.generateTopWorkChainHashset, result, Outcome.ok_bind, Outcome.pure_def]
  · intro hash
    have entry := inSet hash
    simp only [Finset.notMem_empty, false_or] at entry
    exact entry
  · intro n hash
    have entry := inMap n hash
    simp only [reduceCtorEq, and_false, or_false] at entry
    exact entry

theorem default_known {hash : Hash} {b : BlockHeaderWithNumber} (stored : Chain.default.knownHeaders hash = some b) :
    hash = genesisHeader.hash ∧ b = genesis := by
  by_cases same : hash = genesisHeader.hash
  · rw [same] at stored
    exact ⟨same, (Option.some.inj stored).symm⟩
  · have absent : mapInsert (fun _ => none) genesisHeader.hash genesis hash = none := mapInsert_of_ne same
    exact absurd (stored.symm.trans absent) (by simp)

end Chain

end Bitlens

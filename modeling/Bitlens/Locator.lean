import Bitlens.Payload
import Bitlens.ForkComputation

namespace Bitlens
open Lib

namespace Chain

/-- The loop of `build_get_headers`; the height of `current` falls in each turn. -/
def blockLocatorLoop (p : Profile) (c : Chain) :
    Nat → BlockHeaderWithNumber → Nat → List Hash → Outcome (List Hash)
  | 0, _, _, _ => .fault
  | fuel + 1, current, step, blockLocator =>
    if current.number > 0 then do
      let step ← (if blockLocator.length ≥ 10 then p.mul 64 step 2 else .ok step : Outcome Nat)
      let step := if step > current.number then current.number else step
      let ancestor ← c.getAncestor current (current.number - step)
      let new ← Outcome.unwrap ancestor
      c.blockLocatorLoop p fuel new step (blockLocator ++ [new.header.hash])
    else .ok blockLocator

def buildGetHeaders (p : Profile) (c : Chain) : Outcome GetHeaders :=
  if c.topHeader.number = 0 then
    .ok { version := 70016, blockLocator := [c.topHeader.header.hash], hashStop := emptyHash }
  else do
    let blockLocator ← c.blockLocatorLoop p (c.topHeader.number + 1) c.topHeader 1 [c.topHeader.header.hash]
    pure { version := 70016, blockLocator := blockLocator, hashStop := emptyHash }

/-- Main-chain hashes from the top down to genesis, the first ten next to each other,
and behind them each step twice as long as the one before it but for the last. -/
structure IsLocator (c : Chain) (locator : List Hash) : Prop where
  onMain : ∀ hash ∈ locator, c.OnMain hash
  decreasing : (locator.map c.heightOf).Pairwise (· > ·)
  head : locator.head? = some c.topHeader.header.hash
  last : locator.getLast? = some genesisHeader.hash
  firstTen : ∀ i < 10, i ≤ c.topHeader.number → (locator.map c.heightOf)[i]? = some (c.topHeader.number - i)
  doubles : ∀ i x y z, 8 ≤ i → (locator.map c.heightOf)[i]? = some x → (locator.map c.heightOf)[i + 1]? = some y →
    (locator.map c.heightOf)[i + 2]? = some z → y - z = 2 * (x - y) ∨ (z = 0 ∧ y - z < 2 * (x - y))
  short : locator.length ≤ 11 + Nat.log2 (c.topHeader.number + 1)

end Chain

/-- How far the `i`-th entry of a locator is below the top. -/
def locatorDepth : Nat → Nat
  | 0 => 0
  | i + 1 => locatorDepth i + 2 ^ (i - 8)

theorem locatorDepth_of_le {i : Nat} (early : i ≤ 9) : locatorDepth i = i := by
  induction i with
  | zero => rfl
  | succ i ih =>
    have single : i - 8 = 0 := by omega
    rw [locatorDepth, ih (by omega), single, pow_zero]

theorem locatorDepth_of_ge {i : Nat} (late : 9 ≤ i) : locatorDepth i = 7 + 2 ^ (i - 8) := by
  induction i, late using Nat.le_induction with
  | base => rfl
  | succ i late ih =>
    have next : i + 1 - 8 = i - 8 + 1 := by omega
    rw [locatorDepth, ih, next, pow_succ]
    omega

theorem locatorDepth_strictMono : StrictMono locatorDepth :=
  strictMono_nat_of_lt_succ fun _ => Nat.lt_add_of_pos_right (Nat.two_pow_pos _)

/-- A locator has one entry for each power of two behind the first ten. -/
theorem locator_length_le {top m : Nat} (inside : ∀ i < m, locatorDepth i < top) : m ≤ 10 + Nat.log2 (top + 1) := by
  by_cases early : m ≤ 10
  · omega
  · have last := inside (m - 1) (by omega)
    rw [locatorDepth_of_ge (by omega)] at last
    have power : m - 1 - 8 ≤ Nat.log2 (top + 1) := (Nat.le_log2 (by omega)).mpr (by omega)
    omega

namespace Chain

variable {p : Profile} {c : Chain}

theorem blockLocatorLoop_of_zero (fuel : Nat) {current : BlockHeaderWithNumber} (step : Nat) (locator : List Hash)
    (bottom : current.number = 0) : c.blockLocatorLoop p (fuel + 1) current step locator = .ok locator := by
  rw [blockLocatorLoop, if_neg (by omega)]

/-- The new step when `j + 1` entries are there. -/
theorem locator_step {top j number : Nat} (bounded : top < 2 ^ 64) (level : number + locatorDepth j = top)
    {locator : List Hash} (length : locator.length = j + 1) :
    (if locator.length ≥ 10 then p.mul 64 (2 ^ (j - 9)) 2 else .ok (2 ^ (j - 9))) = .ok (2 ^ (j - 8)) := by
  by_cases late : 9 ≤ j
  · have next : j - 8 = j - 9 + 1 := by omega
    have depth := locatorDepth_of_ge late
    rw [if_pos (by omega), next, pow_succ]
    rw [next, pow_succ] at depth
    exact Profile.mul_of_lt (by omega)
  · have none_yet : j - 9 = 0 ∧ j - 8 = 0 := by omega
    rw [if_neg (by omega), none_yet.1, none_yet.2]

/-- The loop adds the main-chain blocks at the depths of a locator, until the first
depth that is not above genesis. -/
theorem WellFormed.blockLocatorLoop (wf : c.WellFormed) (bounded : c.topHeader.number < 2 ^ 64) (fuel : Nat)
    (current : BlockHeaderWithNumber) (j : Nat) (locator : List Hash) (holds : c.Holds current)
    (onMain : c.OnMain current.header.hash) (enough : current.number < fuel)
    (level : current.number + locatorDepth j = c.topHeader.number) (length : locator.length = j + 1) :
    ∃ nodes, c.blockLocatorLoop p fuel current (2 ^ (j - 9)) locator = .ok (locator ++ nodes) ∧
      (∀ hash ∈ nodes, c.OnMain hash) ∧
      nodes.map c.heightOf = (List.range' (j + 1) nodes.length).map (fun i => c.topHeader.number - locatorDepth i) ∧
      c.topHeader.number ≤ locatorDepth (j + nodes.length) ∧
      ∀ i < nodes.length, locatorDepth (j + i) < c.topHeader.number := by
  induction fuel generalizing current j locator with
  | zero => omega
  | succ fuel ih =>
    by_cases bottom : current.number = 0
    · refine ⟨[], ?_, by simp, by simp, by simp; omega, by simp⟩
      rw [blockLocatorLoop_of_zero fuel _ _ bottom, List.append_nil]
    have depth : locatorDepth (j + 1) = locatorDepth j + 2 ^ (j - 8) := rfl
    have positive := Nat.two_pow_pos (j - 8)
    rw [Chain.blockLocatorLoop, if_pos (by omega), locator_step bounded level length, Outcome.ok_bind]
    obtain ⟨a, found, holdsA, levelA, path⟩ := wf.getAncestor holds
      (Nat.sub_le current.number (if 2 ^ (j - 8) > current.number then current.number else 2 ^ (j - 8)))
    dsimp only
    rw [found, Outcome.ok_bind, Outcome.unwrap_some, Outcome.ok_bind]
    have onMainA : c.OnMain a.header.hash := onMain.trans path
    by_cases clamped : 2 ^ (j - 8) > current.number
    · -- the step that lands on genesis
      rw [if_pos clamped] at levelA ⊢
      obtain ⟨rest, more⟩ : ∃ rest, fuel = rest + 1 := Nat.exists_eq_succ_of_ne_zero (by omega)
      rw [more, blockLocatorLoop_of_zero rest _ _ (by omega)]
      refine ⟨[a.header.hash], rfl, by simpa using onMainA, ?_, ?_, ?_⟩
      · simp only [List.map_cons, List.map_nil, List.length_singleton, List.range'_one, holdsA.heightOf]
        rw [depth, levelA]
        congr 1
        omega
      · rw [List.length_singleton, depth]
        omega
      · intro i inside
        obtain rfl : i = 0 := by simpa using inside
        rw [Nat.add_zero]
        omega
    · rw [if_neg clamped] at levelA ⊢
      have step : j - 8 = j + 1 - 9 := by omega
      rw [step]
      obtain ⟨nodes, result, main, heights, ends, inside⟩ := ih a (j + 1) (locator ++ [a.header.hash]) holdsA onMainA
        (by omega) (by omega) (by rw [List.length_append, length, List.length_singleton])
      refine ⟨a.header.hash :: nodes, ?_, ?_, ?_, ?_, ?_⟩
      · rw [result, List.append_assoc]
        rfl
      · intro hash member
        rcases List.mem_cons.mp member with same | later
        · rw [same]
          exact onMainA
        · exact main hash later
      · rw [List.map_cons, heights, List.length_cons, List.range'_succ, List.map_cons, holdsA.heightOf]
        congr 1
        omega
      · rw [List.length_cons]
        convert ends using 2
        omega
      · intro i within
        cases i with
        | zero =>
          rw [Nat.add_zero]
          omega
        | succ i =>
          have below := inside i (by simpa using within)
          rwa [Nat.add_right_comm] at below

/-- A list of main-chain blocks at the depths of a locator is one. -/
theorem Rooted.isLocator (rooted : c.Rooted) {locator : List Hash} {m : Nat}
    (onMain : ∀ hash ∈ locator, c.OnMain hash) (head : locator.head? = some c.topHeader.header.hash)
    (heights : locator.map c.heightOf = (List.range (m + 1)).map fun i => c.topHeader.number - locatorDepth i)
    (ends : c.topHeader.number ≤ locatorDepth m) (inside : ∀ i < m, locatorDepth i < c.topHeader.number) :
    c.IsLocator locator := by
  have length : locator.length = m + 1 := by
    have := congrArg List.length heights
    simpa using this
  have entry : ∀ i height, (locator.map c.heightOf)[i]? = some height →
      i ≤ m ∧ height = c.topHeader.number - locatorDepth i := by
    intro i height found
    rw [heights, List.getElem?_map, Option.map_eq_some_iff] at found
    obtain ⟨j, atIndex, rfl⟩ := found
    have within : i < m + 1 := by simpa using (List.getElem?_eq_some_iff.mp atIndex).1
    rw [List.getElem?_range within] at atIndex
    cases Option.some.inj atIndex
    exact ⟨by omega, rfl⟩
  refine ⟨onMain, ?_, head, ?_, ?_, ?_, ?_⟩
  · rw [heights, List.pairwise_map]
    refine List.pairwise_lt_range.imp_of_mem fun {i k} _ within less => ?_
    have deeper := locatorDepth_strictMono less
    have below := inside i (by have := List.mem_range.mp within; omega)
    omega
  · have nonempty : locator ≠ [] := List.ne_nil_of_length_eq_add_one length
    have last := onMain _ (List.getLast_mem nonempty)
    obtain ⟨known, _⟩ := rooted.graded.descends rooted.known_top last
    rw [List.getLast?_eq_some_getLast nonempty, rooted.root_eq known]
    have atEnd := entry m _ (by
      rw [List.getElem?_map, show m = locator.length - 1 by omega, ← List.getLast?_eq_getElem?,
        List.getLast?_eq_some_getLast nonempty, Option.map_some])
    rw [atEnd.2]
    omega
  · intro i early high
    have depth := locatorDepth_of_le (by omega : i ≤ 9)
    have within : i < m + 1 := by
      by_contra outside
      have shallow := locatorDepth_of_le (by omega : m ≤ 9)
      omega
    rw [heights, List.getElem?_map, List.getElem?_range within, Option.map_some, depth]
  · intro i x y z late atX atY atZ
    obtain ⟨_, rfl⟩ := entry _ _ atX
    obtain ⟨_, rfl⟩ := entry _ _ atY
    obtain ⟨within, rfl⟩ := entry _ _ atZ
    have below := inside (i + 1) (by omega)
    have first : locatorDepth (i + 1) = locatorDepth i + 2 ^ (i - 8) := rfl
    have second : locatorDepth (i + 2) = locatorDepth (i + 1) + 2 ^ (i - 8 + 1) := by
      rw [show i - 8 + 1 = i + 1 - 8 by omega]
      rfl
    rw [pow_succ] at second
    omega
  · have few := locator_length_le inside
    omega

/-- `build_get_headers` returns a block locator. -/
theorem buildGetHeaders_spec (wf : c.WellFormed) (rooted : c.Rooted) (bounded : c.topHeader.number < 2 ^ 64) :
    ∃ v, c.buildGetHeaders p = .ok v ∧ c.IsLocator v.blockLocator := by
  unfold buildGetHeaders
  by_cases bottom : c.topHeader.number = 0
  · rw [if_pos bottom]
    refine ⟨_, rfl, rooted.isLocator (m := 0) ?_ rfl ?_ ?_ (by simp)⟩
    · intro hash member
      rw [List.mem_singleton.mp member]
      exact .refl _
    · rw [List.map_singleton, wf.top.heightOf]
      rfl
    · rw [bottom]
      exact Nat.zero_le _
  · rw [if_neg bottom]
    obtain ⟨nodes, result, main, heights, ends, inside⟩ := wf.blockLocatorLoop (p := p) bounded (c.topHeader.number + 1)
      c.topHeader 0 [c.topHeader.header.hash] wf.top (.refl _) (Nat.lt_succ_self _) rfl rfl
    change c.blockLocatorLoop p _ _ 1 _ = _ at result
    rw [result]
    refine ⟨_, rfl, rooted.isLocator (m := nodes.length) ?_ rfl ?_ ?_ ?_⟩
    · intro hash member
      rcases List.mem_cons.mp member with same | later
      · rw [same]
        exact .refl _
      · exact main hash later
    · rw [List.range_eq_range', List.range'_succ, List.map_cons]
      change c.heightOf c.topHeader.header.hash :: nodes.map c.heightOf = _
      rw [wf.top.heightOf, heights]
      rfl
    · rwa [Nat.zero_add] at ends
    · intro i within
      have below := inside i within
      rwa [Nat.zero_add] at below

end Chain

theorem buildGetHeaders_spec_child :
    ∃ v, (afterCalls .dev startChainman [(genesisChild 1, false)]).chain.buildGetHeaders .dev = .ok v ∧
      (afterCalls .dev startChainman [(genesisChild 1, false)]).chain.IsLocator v.blockLocator := by
  have step : HeaderCall .dev startChainman (genesisChild 1, false)
      (afterCalls .dev startChainman [(genesisChild 1, false)]) := headerCall_of_returns (by decide)
  have grown := step.grown Chain.default_grown
  exact Chain.buildGetHeaders_spec grown.wellFormed grown.rooted (by decide)

end Bitlens

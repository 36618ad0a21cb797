import Bitlens.GrownChain
import Bitlens.MissingBlocks

namespace Bitlens
open Lib

namespace Chain

/-- The loop of `respond_to_getheaders` over the heights from `number` on. -/
def headersToSend (c : Chain) (blockStop : Hash) : Nat → Nat → Outcome (List BlockHeaderOwned)
  | _, 0 => .ok []
  | number, remaining + 1 => do
    let hash ← Outcome.unwrap (c.numberToHash number)
    if hash = blockStop then pure []
    else
      let known ← Outcome.unwrap (c.knownHeaders hash)
      let result ← c.headersToSend blockStop (number + 1) remaining
      pure (known.header :: result)

def respondToGetheaders (p : Profile) (c : Chain) (locator : List Hash) (blockStop : Hash) :
    Outcome (Option (List BlockHeaderOwned)) :=
  if locator.isEmpty then .ok none
  else
    match locator.find? fun hash => hash ∈ c.mostWorkChain with
    | none => .ok none
    | some matchedHash => do
      let header ← Outcome.unwrap (c.knownHeaders matchedHash)
      let blocksToSendCount ← p.sub 64 c.topHeader.number header.number
      if blocksToSendCount = 0 then pure none
      else
        let result ← c.headersToSend blockStop header.number (min blocksToSendCount 2000)
        pure (some result)

/-! What a requester expects. -/

/-- The headers of the main chain at `count` heights from `number` on. -/
def mainHeaders (c : Chain) (number count : Nat) : List BlockHeaderOwned :=
  (List.range' number count).filterMap fun n => ((c.numberToHash n).bind c.knownHeaders).map (·.header)

/-- The headers up to the one with the hash `blockStop`, which is included. -/
def throughStop (blockStop : Hash) : List BlockHeaderOwned → List BlockHeaderOwned
  | [] => []
  | header :: rest => if header.hash = blockStop then [header] else header :: throughStop blockStop rest

/-- The answer to `getheaders`: the headers above the first locator hash on the main chain. -/
def expectedHeaders (c : Chain) (locator : List Hash) (blockStop : Hash) : Option (List BlockHeaderOwned) :=
  match locator.find? fun hash => hash ∈ c.mostWorkChain with
  | none => none
  | some matchedHash =>
    if matchedHash = c.topHeader.header.hash then none
    else
      let number := c.heightOf matchedHash
      some (throughStop blockStop (c.mainHeaders (number + 1) (min (c.topHeader.number - number) 2000)))

variable {p : Profile} {c : Chain} {locator : List Hash} {blockStop : Hash}

/-- The main chain has one block at each height up to the top. -/
theorem Indexed.main_at (indexed : c.Indexed) (wf : c.WellFormed) {n : Nat} (below : n ≤ c.topHeader.number) :
    ∃ b, c.numberToHash n = some b.header.hash ∧ c.knownHeaders b.header.hash = some b ∧ b.number = n := by
  obtain ⟨a, _, holds, level, path⟩ := wf.getAncestor wf.top below
  obtain ⟨b, stored, sameHeader, sameNumber⟩ := holds
  have name := wf.keyed _ _ stored
  refine ⟨b, ?_, by rw [name, stored], by rw [sameNumber, level]⟩
  rw [indexed.numbers, name, heightOf_of_known stored]
  exact ⟨path, by rw [sameNumber, level]⟩

theorem Indexed.mainHeaders_succ (indexed : c.Indexed) (wf : c.WellFormed) {number : Nat} (count : Nat)
    (below : number ≤ c.topHeader.number) :
    ∃ b, c.numberToHash number = some b.header.hash ∧ c.knownHeaders b.header.hash = some b ∧ b.number = number ∧
      c.mainHeaders number (count + 1) = b.header :: c.mainHeaders (number + 1) count := by
  obtain ⟨b, atNumber, stored, level⟩ := indexed.main_at wf below
  refine ⟨b, atNumber, stored, level, ?_⟩
  rw [mainHeaders, List.range'_succ, List.filterMap_cons, atNumber, Option.bind_some, stored]
  rfl

/-- Which headers those are. -/
theorem Indexed.mainHeaders_get (indexed : c.Indexed) (wf : c.WellFormed) {number count : Nat}
    (below : number + count ≤ c.topHeader.number + 1) {i : Nat} (inside : i < count) :
    ∃ b, (c.mainHeaders number count)[i]? = some b.header ∧ c.knownHeaders b.header.hash = some b ∧
      c.OnMain b.header.hash ∧ b.number = number + i := by
  induction count generalizing number i with
  | zero => omega
  | succ count ih =>
    obtain ⟨b, atNumber, stored, level, split⟩ := indexed.mainHeaders_succ wf count (by omega : number ≤ _)
    rw [split]
    cases i with
    | zero => exact ⟨b, rfl, stored, ((indexed.numbers _ _).mp atNumber).1, by omega⟩
    | succ i =>
      obtain ⟨b', found, stored', onMain, level'⟩ := ih (show number + 1 + count ≤ _ by omega) (by omega : i < count)
      exact ⟨b', found, stored', onMain, by omega⟩

/-- The code stops before the block with the hash `blockStop`. -/
theorem Indexed.headersToSend (indexed : c.Indexed) (wf : c.WellFormed) (blockStop : Hash) (number count : Nat)
    (below : number + count ≤ c.topHeader.number + 1) :
    c.headersToSend blockStop number count =
      .ok ((c.mainHeaders number count).takeWhile fun header => header.hash ≠ blockStop) := by
  induction count generalizing number with
  | zero => rfl
  | succ count ih =>
    obtain ⟨b, atNumber, stored, _, split⟩ := indexed.mainHeaders_succ wf count (by omega : number ≤ _)
    rw [Chain.headersToSend, atNumber, Outcome.unwrap_some, Outcome.ok_bind, split]
    by_cases stops : b.header.hash = blockStop
    · rw [if_pos stops, List.takeWhile_cons_of_neg (by simp [stops])]
      rfl
    · rw [if_neg stops, stored, ih (number + 1) (by omega), List.takeWhile_cons_of_pos (by simp [stops])]
      rfl

/-- The code answers from the matched header on and leaves out the top. -/
theorem Indexed.respondToGetheaders (indexed : c.Indexed) (wf : c.WellFormed) (p : Profile) (blockStop : Hash)
    {matchedHash : Hash}
    (found : (locator.find? fun hash => hash ∈ c.mostWorkChain) = some matchedHash)
    (other : matchedHash ≠ c.topHeader.header.hash) :
    c.heightOf matchedHash < c.topHeader.number ∧
      c.respondToGetheaders p locator blockStop =
        .ok (some ((c.mainHeaders (c.heightOf matchedHash) (min (c.topHeader.number - c.heightOf matchedHash) 2000)).takeWhile
          fun header => header.hash ≠ blockStop)) := by
  have onMain := (indexed.members _).mp (by simpa using List.find?_some found)
  have upper := wf.onMain_height_le onMain
  have below : c.heightOf matchedHash < c.topHeader.number := by
    rcases Nat.lt_or_eq_of_le upper with less | same
    · exact less
    · exact absurd (wf.onMain_unique onMain (.refl _) (by rw [same, wf.top.heightOf])) other
  obtain ⟨b, stored⟩ := Option.isSome_iff_exists.mp (wf.known_of_onMain onMain)
  have level := heightOf_of_known stored
  have nonempty : locator.isEmpty = false := by
    cases locator with
    | nil => cases found
    | cons => rfl
  rw [level] at below ⊢
  refine ⟨below, ?_⟩
  rw [Chain.respondToGetheaders, nonempty, found]
  dsimp only
  rw [if_neg Bool.false_ne_true, stored, Outcome.unwrap_some, Outcome.ok_bind, Profile.sub_of_le (by omega),
    Outcome.ok_bind, if_neg (by omega), indexed.headersToSend wf _ _ _ (by omega)]
  rfl

theorem throughStop_cons (blockStop : Hash) (header : BlockHeaderOwned) (rest : List BlockHeaderOwned) :
    ∃ more, throughStop blockStop (header :: rest) = header :: more := by
  rw [throughStop]
  split
  · exact ⟨[], rfl⟩
  · exact ⟨_, rfl⟩

/-- What is expected below the top begins one height above the matched block. -/
theorem Indexed.expectedHeaders_split (indexed : c.Indexed) (wf : c.WellFormed) (blockStop : Hash) {matchedHash : Hash}
    (found : (locator.find? fun hash => hash ∈ c.mostWorkChain) = some matchedHash)
    (other : matchedHash ≠ c.topHeader.header.hash) (below : c.heightOf matchedHash < c.topHeader.number) :
    ∃ b more, c.expectedHeaders locator blockStop = some (b.header :: more) ∧
      c.knownHeaders b.header.hash = some b ∧ b.number = c.heightOf matchedHash + 1 := by
  obtain ⟨count, some_left⟩ : ∃ count, min (c.topHeader.number - c.heightOf matchedHash) 2000 = count + 1 :=
    Nat.exists_eq_succ_of_ne_zero (by omega)
  obtain ⟨b, _, stored, level, split⟩ := indexed.mainHeaders_succ wf count (by omega : c.heightOf matchedHash + 1 ≤ _)
  obtain ⟨more, through⟩ := throughStop_cons blockStop b.header (c.mainHeaders (c.heightOf matchedHash + 1 + 1) count)
  refine ⟨b, more, ?_, stored, level⟩
  rw [expectedHeaders, found]
  dsimp only
  rw [if_neg other, some_left, split, through]

/-- The code gives the expected answer exactly when there is nothing to send: what it
sends begins with the matched header itself. -/
theorem respondToGetheaders_iff (wf : c.WellFormed) (indexed : c.Indexed) :
    c.respondToGetheaders p locator blockStop = .ok (c.expectedHeaders locator blockStop) ↔
      ∀ hash, (locator.find? fun hash => hash ∈ c.mostWorkChain) = some hash → hash = c.topHeader.header.hash := by
  cases found : locator.find? fun hash => hash ∈ c.mostWorkChain with
  | none =>
    have silent : c.respondToGetheaders p locator blockStop = .ok none := by
      rw [Chain.respondToGetheaders, found]
      exact ite_self _
    simp [silent, expectedHeaders, found]
  | some matchedHash =>
    by_cases top : matchedHash = c.topHeader.header.hash
    · refine iff_of_true ?_ fun hash same => ?_
      · obtain ⟨stored, atTop, _, number⟩ := wf.top
        rw [expectedHeaders, Chain.respondToGetheaders, found]
        dsimp only
        rw [if_pos top, top, atTop, Outcome.unwrap_some, Outcome.ok_bind, number, Profile.sub_of_le le_rfl, Outcome.ok_bind,
          if_pos (Nat.sub_self _)]
        exact ite_self _
      · rw [← Option.some.inj same, top]
    · refine iff_of_false (fun same => ?_) fun claim => top (claim _ rfl)
      obtain ⟨below, answer⟩ := indexed.respondToGetheaders wf p blockStop found top
      obtain ⟨b, more, expected, stored, level⟩ := indexed.expectedHeaders_split wf blockStop found top below
      obtain ⟨count, some_left⟩ : ∃ count, min (c.topHeader.number - c.heightOf matchedHash) 2000 = count + 1 :=
        Nat.exists_eq_succ_of_ne_zero (by omega)
      obtain ⟨b', _, stored', level', split⟩ := indexed.mainHeaders_succ wf count below.le
      rw [answer, expected, Outcome.ok.injEq, Option.some.injEq, some_left, split] at same
      -- the first header sent is the matched one, the first one expected is above it
      by_cases stops : b'.header.hash = blockStop
      · rw [List.takeWhile_cons_of_neg (by simp [stops])] at same
        cases same
      · rw [List.takeWhile_cons_of_pos (by simp [stops])] at same
        rw [(List.cons.inj same).1, stored] at stored'
        cases stored'
        omega

end Chain

theorem sampleBranch_indexed : sampleBranch.Indexed := by
  refine ⟨fun hash => ?_, fun n hash => ?_⟩
  · rw [sampleBranch_onMain, sampleBranch, Finset.mem_insert, Finset.mem_insert, Finset.mem_singleton]
    tauto
  · rw [sampleBranch_onMain]
    change mapInsert (mapInsert (mapInsert (fun _ => none) 0 (sampleHash 1)) 1 (sampleHash 2)) 2 (sampleHash 3) n =
      some hash ↔ _
    constructor
    · intro found
      rcases mapInsert_origin found with ⟨rfl, rfl⟩ | found
      · exact ⟨Or.inl rfl, rfl⟩
      rcases mapInsert_origin found with ⟨rfl, rfl⟩ | found
      · exact ⟨Or.inr (Or.inl rfl), rfl⟩
      rcases mapInsert_origin found with ⟨rfl, rfl⟩ | found
      · exact ⟨Or.inr (Or.inr rfl), rfl⟩
      · cases found
    · rintro ⟨rfl | rfl | rfl, rfl⟩ <;> rfl

theorem respondToGetheaders_iff_branch :
    sampleBranch.respondToGetheaders .dev [sampleHash 3, sampleHash 1] emptyHash =
        .ok (sampleBranch.expectedHeaders [sampleHash 3, sampleHash 1] emptyHash) ↔
      ∀ hash, ([sampleHash 3, sampleHash 1].find? fun hash => hash ∈ sampleBranch.mostWorkChain) = some hash →
        hash = sampleHash 3 :=
  Chain.respondToGetheaders_iff sampleBranch_wellFormed sampleBranch_indexed

/-- A requester that has genesis gets genesis again, and not the top. -/
theorem respondToGetheaders_fails :
    ¬ ∀ (p : Profile) (c : Chain) (locator : List Hash) (blockStop : Hash), c.WellFormed → c.Indexed →
      c.respondToGetheaders p locator blockStop = .ok (c.expectedHeaders locator blockStop) := by
  intro claim
  have same := claim .dev sampleBranch [sampleHash 1] emptyHash sampleBranch_wellFormed sampleBranch_indexed
  exact absurd same (by decide)

end Bitlens

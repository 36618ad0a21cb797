import Mathlib.Data.List.TakeWhile
import Bitlens.HeaderExchange

namespace Bitlens
open Lib

namespace Chain

/-- The first `n` answers of `respond_to_getheaders` to a requester who asks again from the
last header of each page. -/
def pagesFrom (p : Profile) (c : Chain) : Nat → List Hash → Outcome (List (List BlockHeaderOwned))
  | 0, _ => .ok []
  | n + 1, locator => do
    match ← c.respondToGetheaders p locator emptyHash with
    | none => pure []
    | some page =>
      match page.getLast? with
      | none => pure [page]
      | some last =>
        let pages ← c.pagesFrom p n [last.hash]
        pure (page :: pages)

variable {p : Profile} {sha256 : Bytes → Hash} {c : Chain} {locator : List Hash} {matched : Hash}

/-- The page from the height `number` on. -/
def pageAt (c : Chain) (number : Nat) : List BlockHeaderOwned :=
  c.mainHeaders number (min (c.topHeader.number - number) 2000)

theorem Served.respondToGetheaders (served : c.Served p sha256)
    (found : (locator.find? fun hash => hash ∈ c.mostWorkChain) = some matched)
    (other : matched ≠ c.topHeader.header.hash) :
    c.heightOf matched < c.topHeader.number ∧
      c.respondToGetheaders p locator emptyHash = .ok (some (c.pageAt (c.heightOf matched))) := by
  obtain ⟨below, answer⟩ := served.indexed.respondToGetheaders served.wellFormed p emptyHash found other
  refine ⟨below, answer.trans ?_⟩
  rw [List.takeWhile_eq_self_iff.mpr]
  · rfl
  · intro header member
    obtain ⟨b, stored, _⟩ := stored_of_mem_mainHeaders served.wellFormed member
    have apart : header.hash ≠ emptyHash := by
      intro zero
      rw [zero] at stored
      exact served.nonzero (Option.isSome_of_eq_some stored)
    simpa using apart

/-- A page ends just below the page that could follow it, and below the top. -/
theorem Served.getLast_pageAt (served : c.Served p sha256) {number : Nat} (below : number < c.topHeader.number) :
    ∃ b : BlockHeaderWithNumber, (c.pageAt number).getLast? = some b.header ∧ b.header.hash ∈ c.mostWorkChain ∧
      c.heightOf b.header.hash = min (number + 1999) (c.topHeader.number - 1) := by
  obtain ⟨count, some_left⟩ : ∃ count, min (c.topHeader.number - number) 2000 = count + 1 :=
    Nat.exists_eq_succ_of_ne_zero (by omega)
  obtain ⟨b, atEnd, member, height⟩ :=
    served.indexed.getLast_mainHeaders served.wellFormed (by omega : number + count ≤ c.topHeader.number)
  refine ⟨b, ?_, member, by omega⟩
  rw [pageAt, some_left]
  exact atEnd

theorem Served.below_top_of_mem_pageAt (served : c.Served p sha256) {number : Nat} (below : number < c.topHeader.number)
    {header : BlockHeaderOwned} (member : header ∈ c.pageAt number) : header.hash ≠ c.topHeader.header.hash := by
  obtain ⟨i, found⟩ := List.mem_iff_getElem?.mp member
  have inside : i < min (c.topHeader.number - number) 2000 := by
    rw [← served.indexed.length_mainHeaders served.wellFormed
      (by omega : number + min (c.topHeader.number - number) 2000 ≤ _)]
    exact (List.getElem?_eq_some_iff.mp found).1
  obtain ⟨b, atIndex, stored, _, level⟩ := served.indexed.mainHeaders_get served.wellFormed
    (by omega : number + min (c.topHeader.number - number) 2000 ≤ _) inside
  rw [Option.some.inj (found.symm.trans atIndex)]
  intro top
  have height := heightOf_of_known stored
  rw [top, served.wellFormed.top.heightOf] at height
  omega

/-- The pages overlap in one header and end below the top: the requester never gets the top, and
when it has what is below, it gets the same page of one header for ever. -/
theorem Served.pagesFrom_eq (served : c.Served p sha256)
    (found : (locator.find? fun hash => hash ∈ c.mostWorkChain) = some matched)
    (other : matched ≠ c.topHeader.header.hash) (n : Nat) :
    c.pagesFrom p n locator =
        .ok ((List.range n).map fun i => c.pageAt (min (c.heightOf matched + 1999 * i) (c.topHeader.number - 1))) ∧
      ∀ i, ∀ header ∈ c.pageAt (min (c.heightOf matched + 1999 * i) (c.topHeader.number - 1)),
        header.hash ≠ c.topHeader.header.hash := by
  have below := (served.respondToGetheaders found other).1
  refine ⟨?_, fun i header => served.below_top_of_mem_pageAt (by omega)⟩
  induction n generalizing locator matched with
  | zero => rfl
  | succ n ih =>
    obtain ⟨_, answer⟩ := served.respondToGetheaders found other
    obtain ⟨b, atEnd, member, height⟩ := served.getLast_pageAt below
    have found' : ([b.header.hash].find? fun hash => hash ∈ c.mostWorkChain) = some b.header.hash :=
      List.find?_cons_of_pos (by simpa using member)
    have other' : b.header.hash ≠ c.topHeader.header.hash := by
      intro top
      rw [top, served.wellFormed.top.heightOf] at height
      omega
    have rest := ih found' other' (by omega)
    rw [pagesFrom, answer, Outcome.ok_bind]
    dsimp only
    rw [atEnd]
    dsimp only
    rw [rest, Outcome.ok_bind, List.range_succ_eq_map, List.map_cons, List.map_map, Nat.mul_zero, Nat.add_zero,
      min_eq_left (by omega : c.heightOf matched ≤ c.topHeader.number - 1)]
    refine congrArg (fun pages => Outcome.ok (c.pageAt (c.heightOf matched) :: pages)) ?_
    refine List.map_congr_left fun i _ => ?_
    rw [height, Function.comp_apply]
    congr 1
    omega

end Chain

theorem pagesFrom_eq_mined :
    minedChain.pagesFrom .dev 3 [genesisHeader.hash] =
      .ok ((List.range 3).map fun i => minedChain.pageAt
        (min (minedChain.heightOf genesisHeader.hash + 1999 * i) (minedChain.topHeader.number - 1))) :=
  (minedChain_served.pagesFrom_eq (by decide) (by decide) 3).1

end Bitlens

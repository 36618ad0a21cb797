import Bitlens.FetchedFlag
import Bitlens.ForkWalk

namespace Bitlens
open Lib

/-- The columns of a header that the table keeps. -/
def BlockHeaderOwned.columns (header : BlockHeaderOwned) : BlockHeaderOwned := { header with txsCount := 0 }

/-- The header that `get_all_headers` builds from a row. -/
def HeaderRow.header (row : HeaderRow) : BlockHeaderOwned :=
  ⟨row.version, row.previousBlock, row.merkleRoot, row.timestamp, row.bits, row.nonce, 0, row.blockHash⟩

/-- Headers with different columns have different hashes, and no header hashes to zero. -/
structure Distinct (headers : List BlockHeaderOwned) : Prop where
  nonzero : ∀ a ∈ headers, a.hash ≠ emptyHash
  columns : ∀ a ∈ genesisHeader :: headers, ∀ b ∈ genesisHeader :: headers, a.hash = b.hash → a.columns = b.columns

/-- The height and the total work that a header has by its ancestors among `headers`. -/
inductive Placed (headers : List BlockHeaderOwned) : BlockHeaderOwned → Nat → Nat → Prop
  | genesis : Placed headers genesisHeader.columns 0 genesis.totalWork
  | child {a parent : BlockHeaderOwned} {number total work : Nat} : a ∈ headers → Placed headers parent number total →
      a.parent = parent.hash → getWork a.bits = .ok work → total + work < 2 ^ 256 →
        Placed headers a.columns (number + 1) (total + work)

variable {headers : List BlockHeaderOwned} {a b : BlockHeaderOwned} {m n v w : Nat}

theorem Placed.named (placed : Placed headers a n w) : ∃ h ∈ genesisHeader :: headers, a = h.columns := by
  cases placed with
  | genesis => exact ⟨genesisHeader, List.mem_cons_self, rfl⟩
  | child member _ _ _ _ => exact ⟨_, List.mem_cons_of_mem _ member, rfl⟩

theorem Placed.nonzero (distinct : Distinct headers) (placed : Placed headers a n w) : a.hash ≠ emptyHash := by
  obtain ⟨h, member, same⟩ := placed.named
  rw [same]
  rcases List.mem_cons.mp member with root | inside
  · rw [root]
    decide
  · exact distinct.nonzero h inside

theorem Placed.columns_eq (distinct : Distinct headers) (first : Placed headers a n w) (second : Placed headers b m v)
    (hash : a.hash = b.hash) : a = b := by
  obtain ⟨h, inside, same⟩ := first.named
  obtain ⟨k, inside', same'⟩ := second.named
  rw [same, same'] at hash ⊢
  exact distinct.columns h inside k inside' hash

/-- The hash determines height and total work. -/
theorem Placed.unique (distinct : Distinct headers) (first : Placed headers a n w) (second : Placed headers b m v)
    (hash : a.hash = b.hash) : n = m ∧ w = v := by
  induction first generalizing b m v with
  | genesis =>
    have same := Placed.genesis.columns_eq distinct second hash
    cases second with
    | genesis => exact ⟨rfl, rfl⟩
    | child _ parent link _ _ =>
      have root : genesisHeader.parent = _ := (congrArg BlockHeaderOwned.parent same).trans link
      exact absurd root.symm (parent.nonzero distinct)
  | @child a parent number total work member above link ofBits fits ih =>
    have same := (Placed.child member above link ofBits fits).columns_eq distinct second hash
    cases second with
    | genesis =>
      have root : genesisHeader.parent = _ := (congrArg BlockHeaderOwned.parent same).symm.trans link
      exact absurd root.symm (above.nonzero distinct)
    | @child b parent' number' total' work' _ above' link' ofBits' _ =>
      have sameParent : a.columns.parent = b.columns.parent := congrArg BlockHeaderOwned.parent same
      have sameBits : a.columns.bits = b.columns.bits := congrArg BlockHeaderOwned.bits same
      obtain ⟨level, sum⟩ := ih above' (link.symm.trans (sameParent.trans link'))
      cases (congrArg getWork sameBits).symm.trans ofBits |>.symm.trans ofBits'
      rw [level, sum]
      exact ⟨rfl, rfl⟩

theorem Placed.number_of_parent (distinct : Distinct headers) (placed : Placed headers a n w) (parent : Placed headers b m v)
    (link : a.parent = b.hash) : n = m + 1 := by
  cases placed with
  | genesis => exact absurd link.symm (parent.nonzero distinct)
  | child _ above found _ _ =>
    have sameHash := found.symm.trans link
    rw [(above.unique distinct parent sameHash).1]

/-- Every header above genesis has more work than genesis. -/
theorem Placed.heavier (placed : Placed headers a n w) : Bitlens.genesis.totalWork + n ≤ w := by
  induction placed with
  | genesis => exact le_rfl
  | child _ _ _ ofBits _ ih =>
    have := getWork_pos ofBits
    omega

theorem Placed.parent_ne (distinct : Distinct headers) (placed : Placed headers a n w) (positive : n ≠ 0) :
    a.parent ≠ emptyHash := by
  cases placed with
  | genesis => exact absurd rfl positive
  | child _ above link _ _ =>
    intro zero
    exact above.nonzero distinct (link.symm.trans zero)

/-- The total work that the reader of the table looks up under a hash. -/
def Totals (headers : List BlockHeaderOwned) (hash : Hash) (total : Nat) : Prop :=
  (hash = emptyHash ∧ total = 0) ∨ ∃ a number, a.hash = hash ∧ Placed headers a number total

/-- From the parent's total the reader computes the header's own total. -/
theorem Placed.sum (distinct : Distinct headers) (placed : Placed headers a n w) {total : Nat}
    (atParent : Totals headers a.parent total) :
    ∃ work, getWork a.bits = .ok work ∧ u256Add total work = .ok w := by
  cases placed with
  | genesis =>
    rcases atParent with ⟨_, zero⟩ | ⟨_, _, hash, parent⟩
    · rw [zero]
      exact ⟨Bitlens.genesis.totalWork, genesis_totalWork, by decide⟩
    · exact absurd hash (parent.nonzero distinct)
  | @child a parent number before work _ above link ofBits fits =>
    have sum : total = before := by
      rcases atParent with ⟨zero, _⟩ | ⟨q, number', hash, found⟩
      · exact absurd (link.symm.trans zero) (above.nonzero distinct)
      · exact (found.unique distinct above (hash.trans link)).2
    rw [sum]
    exact ⟨work, ofBits, u256Add_eq_ok.mpr ⟨fits, rfl⟩⟩

namespace Chain

/-- A chain whose headers are placed by their hashes, each with its parent. -/
structure Traced (headers : List BlockHeaderOwned) (c : Chain) : Prop where
  keyed : ∀ hash b, c.knownHeaders hash = some b → b.header.hash = hash
  placed : ∀ hash b, c.knownHeaders hash = some b → Placed headers b.header.columns b.number b.totalWork
  parents : ∀ hash b, c.knownHeaders hash = some b → b.number ≠ 0 → c.Known b.header.parent

variable {c : Chain} {hash : Hash} {b q : BlockHeaderWithNumber}

theorem Traced.step (distinct : Distinct headers) (traced : c.Traced headers) (stored : c.knownHeaders hash = some b)
    (atParent : c.knownHeaders b.header.parent = some q) :
    b.number = q.number + 1 ∧ ∃ work, getWork b.header.bits = .ok work ∧ b.totalWork = q.totalWork + work := by
  have above := traced.placed _ _ atParent
  have name := traced.keyed _ _ atParent
  have placed := traced.placed hash b stored
  generalize own : b.header.columns = columns at placed
  generalize b.number = number at placed ⊢
  generalize b.totalWork = total at placed ⊢
  have parent : columns.parent = b.header.parent := by rw [← own]; rfl
  have bits : columns.bits = b.header.bits := by rw [← own]; rfl
  cases placed with
  | genesis =>
    have nonzero := above.nonzero distinct
    exact absurd (name.trans parent.symm) nonzero
  | @child a found number total work _ foundAbove link ofBits _ =>
    have sameParent : a.parent = b.header.parent := parent
    obtain ⟨level, sum⟩ := foundAbove.unique distinct above (link.symm.trans (sameParent.trans name.symm))
    rw [← bits]
    exact ⟨by rw [level], work, ofBits, by rw [sum]⟩

/-- The only header at height zero is genesis. -/
theorem Traced.root (traced : c.Traced headers) (stored : c.knownHeaders hash = some b) (zero : b.number = 0) :
    hash = genesisHeader.hash ∧ b.header.columns = genesisHeader.columns ∧ b.totalWork = genesis.totalWork := by
  have placed := traced.placed hash b stored
  have name := traced.keyed hash b stored
  generalize own : b.header.columns = columns at placed
  generalize level : b.number = number at placed zero
  generalize b.totalWork = total at placed ⊢
  have same : columns.hash = hash := by rw [← own]; exact name
  cases placed with
  | genesis => exact ⟨same.symm, rfl, rfl⟩
  | child _ _ _ _ _ => exact absurd zero (Nat.succ_ne_zero _)

theorem Traced.number_ne (traced : c.Traced headers)
    (stored : c.knownHeaders hash = some b) (other : hash ≠ genesisHeader.hash) : b.number ≠ 0 :=
  fun zero => other (traced.root stored zero).1

theorem Traced.wellFormed (distinct : Distinct headers) (traced : c.Traced headers) (top : c.Holds c.topHeader) :
    c.WellFormed := by
  refine ⟨traced.keyed, fun hash b stored positive => ?_, top⟩
  obtain ⟨q, atParent⟩ := Option.isSome_iff_exists.mp (traced.parents hash b stored positive)
  exact ⟨q, atParent, (traced.step distinct stored atParent).1⟩

end Chain

end Bitlens

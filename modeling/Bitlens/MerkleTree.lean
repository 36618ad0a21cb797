import Bitlens.RoundTrip
import Bitlens.Lib.Merkle

namespace Bitlens
open Lib

/-! The tree of `MerkleTree`: one buffer, in which each level overwrites the one before it. -/

namespace MerkleTree

def appendHash (tree : Bytes) (hash : Hash) : Bytes := tree ++ hash.1

def ofHashes (hashes : List Hash) : Bytes := hashes.foldl appendHash []

def len (tree : Bytes) : Nat := tree.length / 32

def getBlock (tree : Bytes) (blockIdx : Nat) : Outcome Bytes :=
  let blockStart := blockIdx * 2 * 32
  Outcome.unwrap (getRange tree blockStart (blockStart + 64))

def getHash (tree : Bytes) (hashIdx : Nat) : Outcome Hash := do
  let hashStart := hashIdx * 32
  let bytes ← Outcome.unwrap (getRange tree hashStart (hashStart + 32))
  Outcome.unwrap (ByteArr.ofBytes 32 bytes)

def setHash (tree : Bytes) (index : Nat) (hash : Hash) : Outcome Bytes :=
  if (index + 1) * 32 ≤ tree.length then .ok (tree.take (index * 32) ++ hash.1 ++ tree.drop ((index + 1) * 32))
  else .fault

/-- `Vec::extend_from_within` of the bytes from `start` on. -/
def extendFromWithin (tree : Bytes) (start : Nat) : Outcome Bytes :=
  if start ≤ tree.length then .ok (tree ++ tree.drop start) else .fault

/-- The loop that looks for two equal neighbours. -/
def hasMutation (tree : Bytes) : Nat → Nat → Outcome Bool
  | 0, _ => .ok false
  | remaining + 1, i => do
    let first ← getHash tree i
    let second ← getHash tree (i + 1)
    let later ← hasMutation tree remaining (i + 1)
    pure (first = second || later)

def collapseLoop (sha256 : Bytes → Hash) : Nat → Nat → Bytes → Outcome Bytes
  | 0, _, tree => .ok tree
  | remaining + 1, i, tree => do
    let block ← getBlock tree i
    let tree ← setHash tree i (digestTwice sha256 block)
    collapseLoop sha256 remaining (i + 1) tree

/-- An odd number of hashes is undefined behaviour. -/
def collapse (sha256 : Bytes → Hash) (tree : Bytes) : Outcome Bytes :=
  if len tree % 2 = 1 then .fault else collapseLoop sha256 (len tree / 2) 0 tree

def intoRootLoop (sha256 : Bytes → Hash) : Nat → Bytes → Bool → Outcome (Hash × Bool)
  | 0, _, _ => .fault
  | fuel + 1, tree, mutation =>
    if len tree > 1 then do
      let repeated ← hasMutation tree (len tree - 1) 0
      let tree ← (if len tree % 2 = 1 then extendFromWithin tree ((len tree - 1) * 32) else .ok tree : Outcome Bytes)
      let tree ← collapse sha256 tree
      intoRootLoop sha256 fuel (tree.take (tree.length / 2)) (mutation || repeated)
    else if tree.isEmpty then .ok (emptyHash, false)
    else do
      let root ← getHash tree 0
      pure (root, mutation)

/-- The number of hashes falls in each turn. -/
def intoRoot (sha256 : Bytes → Hash) (tree : Bytes) : Outcome (Hash × Bool) :=
  intoRootLoop sha256 (len tree + 1) tree false

end MerkleTree

/-- The hash of a pair. -/
def hashPair (sha256 : Bytes → Hash) (left right : Hash) : Hash :=
  digestTwice sha256 (left.1 ++ right.1)

namespace MerkleTree

variable {sha256 : Bytes → Hash} {front back hashes : List Hash}

/-- The buffer that holds a list of hashes. -/
def flat (hashes : List Hash) : Bytes := hashes.flatMap (·.1)

theorem ofHashes_eq (hashes : List Hash) : ofHashes hashes = flat hashes := by
  have grow : ∀ tree, hashes.foldl appendHash tree = tree ++ flat hashes := by
    induction hashes with
    | nil => exact fun tree => (List.append_nil tree).symm
    | cons hash hashes ih =>
      intro tree
      rw [List.foldl_cons, ih, appendHash, List.append_assoc]
      rfl
  exact grow []

@[simp] theorem flat_append (front back : List Hash) : flat (front ++ back) = flat front ++ flat back :=
  List.flatMap_append

@[simp] theorem flat_cons (hash : Hash) (hashes : List Hash) : flat (hash :: hashes) = hash.1 ++ flat hashes := rfl

@[simp] theorem length_flat (hashes : List Hash) : (flat hashes).length = 32 * hashes.length :=
  length_flatMap_const hashes fun hash _ => hash.2

@[simp] theorem len_flat (hashes : List Hash) : len (flat hashes) = hashes.length := by
  rw [len, length_flat, Nat.mul_div_cancel_left _ (by decide)]

theorem getHash_flat (hash : Hash) : getHash (flat (front ++ hash :: back)) front.length = .ok hash := by
  have found := @getRange_split (flat (front ++ hash :: back)) (flat front) hash.1 (flat back) (front.length * 32) 32
    (by simp) (by simp [Nat.mul_comm]) hash.2
  rw [getHash, found, Outcome.unwrap_some, Outcome.ok_bind, ByteArr.ofBytes, dif_pos hash.2]
  rfl

theorem getBlock_flat {i : Nat} (left right : Hash) (start : front.length = 2 * i) :
    getBlock (flat (front ++ left :: right :: back)) i = .ok (left.1 ++ right.1) := by
  have found := @getRange_split (flat (front ++ left :: right :: back)) (flat front) (left.1 ++ right.1) (flat back)
    (i * 2 * 32) 64 (by simp) (by rw [length_flat]; omega) (by rw [List.length_append, left.2, right.2])
  rw [getBlock, found]
  rfl

theorem setHash_flat (old new : Hash) :
    setHash (flat (front ++ old :: back)) front.length new = .ok (flat (front ++ new :: back)) := by
  have before : (flat (front ++ old :: back)).take (front.length * 32) = flat front := by
    rw [flat_append, List.take_left' (by rw [length_flat, Nat.mul_comm])]
  have after : (flat (front ++ old :: back)).drop ((front.length + 1) * 32) = flat back := by
    rw [flat_append, flat_cons, ← List.append_assoc,
      List.drop_left' (by rw [List.length_append, length_flat, old.2]; omega)]
  rw [setHash, if_pos (by rw [length_flat, List.length_append, List.length_cons]; omega), before, after, flat_append,
    flat_cons, List.append_assoc]

/-- The search sees the neighbours behind `front`. -/
theorem hasMutation_flat (first : Hash) (rest : List Hash) :
    hasMutation (flat (front ++ first :: rest)) rest.length front.length = .ok (Merkle.repeats (first :: rest)) := by
  induction rest generalizing front first with
  | nil => rfl
  | cons second rest ih =>
    have split : front ++ first :: second :: rest = (front ++ [first]) ++ second :: rest := by simp
    have next : front.length + 1 = (front ++ [first]).length := by simp
    rw [List.length_cons, hasMutation, getHash_flat, Outcome.ok_bind, next, split, getHash_flat, Outcome.ok_bind, ih,
      Outcome.ok_bind, Merkle.repeats]
    rfl

/-- Behind `done`, the hashes written so far, and `gap`, as many that are stale, the
loop reads two hashes for each one it writes. -/
theorem collapseLoop_flat (remaining : Nat) (done gap rest : List Hash) (sameLength : gap.length = done.length)
    (length : rest.length = 2 * remaining) :
    ∃ stale, collapseLoop sha256 remaining done.length (flat (done ++ gap ++ rest)) =
        .ok (flat (done ++ Merkle.up (hashPair sha256) rest ++ stale)) ∧ stale.length = done.length + remaining := by
  induction remaining generalizing done gap rest with
  | zero =>
    obtain rfl := List.length_eq_zero_iff.mp length
    exact ⟨gap, by simp [collapseLoop, Merkle.up, Merkle.pairs], sameLength⟩
  | succ remaining ih =>
    obtain ⟨left, right, rest, rfl⟩ : ∃ left right tail, rest = left :: right :: tail := by
      cases rest with
      | nil => cases length
      | cons left rest =>
        cases rest with
        | nil =>
          rw [List.length_singleton] at length
          omega
        | cons right rest => exact ⟨left, right, rest, rfl⟩
    · rw [List.length_cons, List.length_cons] at length
      -- the slot that is written is the first stale one, or `left` itself
      obtain ⟨old, gap', slot⟩ : ∃ old gap', gap ++ [left, right] = old :: gap' := by
        cases gap with
        | nil => exact ⟨left, [right], rfl⟩
        | cons stale gap => exact ⟨stale, gap ++ [left, right], rfl⟩
      have slots : gap'.length = done.length + 1 := by
        have count := congrArg List.length slot
        rw [List.length_append, List.length_cons, sameLength] at count
        exact Nat.succ.inj count.symm
      have before : done ++ gap ++ left :: right :: rest = done ++ old :: (gap' ++ rest) := by
        rw [← List.cons_append, ← slot]
        simp
      have after : done ++ hashPair sha256 left right :: (gap' ++ rest) =
          (done ++ [hashPair sha256 left right]) ++ gap' ++ rest := by simp
      have next : done.length + 1 = (done ++ [hashPair sha256 left right]).length := by simp
      obtain ⟨stale, result, count⟩ := ih (done ++ [hashPair sha256 left right]) gap' rest (by rw [slots, next])
        (by omega)
      refine ⟨stale, ?_, by rw [count, ← next]; omega⟩
      rw [collapseLoop, getBlock_flat left right (by rw [List.length_append, sameLength, Nat.two_mul]), Outcome.ok_bind,
        before, setHash_flat, Outcome.ok_bind]
      change collapseLoop sha256 remaining (done.length + 1) (flat (done ++ hashPair sha256 left right :: (gap' ++ rest))) = _
      rw [after, next, result]
      simp [Merkle.up, Merkle.pairs]

/-- Collapsing an even level and cutting the buffer in half leaves the next level. -/
theorem collapse_flat (even : hashes.length % 2 = 0) :
    ∃ tree, collapse sha256 (flat hashes) = .ok tree ∧
      tree.take (tree.length / 2) = flat (Merkle.up (hashPair sha256) hashes) := by
  obtain ⟨stale, result, count⟩ := @collapseLoop_flat sha256 (hashes.length / 2) [] [] hashes rfl (by omega)
  refine ⟨_, by rw [collapse, len_flat, if_neg (by omega)]; exact result, ?_⟩
  rw [List.nil_append, flat_append, List.take_left']
  rw [List.length_append, length_flat, length_flat, Merkle.length_up, count, List.length_nil]
  omega

/-- One turn of `into_root` makes the next level. -/
theorem level_flat (positive : hashes ≠ []) :
    ∃ tree tree', (if hashes.length % 2 = 1 then extendFromWithin (flat hashes) ((hashes.length - 1) * 32)
        else .ok (flat hashes)) = .ok tree ∧ collapse sha256 tree = .ok tree' ∧
      tree'.take (tree'.length / 2) = flat (Merkle.up (hashPair sha256) hashes) := by
  by_cases odd : hashes.length % 2 = 1
  · obtain ⟨init, last, rfl⟩ : ∃ init last, hashes = init ++ [last] :=
      ⟨_, _, (List.dropLast_append_getLast positive).symm⟩
    rw [List.length_append, List.length_singleton] at odd
    have behind : (flat (init ++ [last])).drop (((init ++ [last]).length - 1) * 32) = flat [last] := by
      rw [flat_append, List.drop_left']
      rw [length_flat, List.length_append, List.length_singleton]
      omega
    have repeated : Merkle.up (hashPair sha256) (init ++ [last, last]) = Merkle.up (hashPair sha256) (init ++ [last]) := by
      rw [Merkle.up, Merkle.pairs_repeat_last (by omega), Merkle.up]
    obtain ⟨tree', result, cut⟩ := @collapse_flat sha256 (init ++ [last, last]) (by
      rw [List.length_append, List.length_cons, List.length_singleton]
      omega)
    refine ⟨flat (init ++ [last, last]), tree', ?_, result, by rw [cut, repeated]⟩
    rw [if_pos (by rw [List.length_append, List.length_singleton]; omega), extendFromWithin,
      if_pos (by rw [length_flat]; omega), behind, ← flat_append, List.append_assoc]
    rfl
  · obtain ⟨tree', result, cut⟩ := @collapse_flat sha256 hashes (by omega)
    exact ⟨flat hashes, tree', by rw [if_neg odd], result, cut⟩

theorem intoRootLoop_flat (fuel : Nat) (hashes : List Hash) (mutation : Bool) (enough : hashes.length < fuel) :
    intoRootLoop sha256 fuel (flat hashes) mutation =
      .ok (Merkle.root (hashPair sha256) emptyHash hashes,
        !hashes.isEmpty && (mutation || Merkle.mutated (hashPair sha256) hashes)) := by
  induction fuel generalizing hashes mutation with
  | zero => omega
  | succ fuel ih =>
    match hashes with
    | [] => simp [intoRootLoop, len, flat, Merkle.root]
    | [node] =>
      have read : getHash (flat [node]) 0 = .ok node := @getHash_flat [] [] node
      have nonempty : (flat [node]).isEmpty = false := by
        rw [List.isEmpty_eq_false_iff, ← List.length_pos_iff_ne_nil, length_flat]
        simp
      rw [intoRootLoop, len_flat, if_neg (by simp), nonempty, if_neg Bool.false_ne_true, read,
        Outcome.ok_bind]
      simp [Merkle.root, Merkle.mutated]
    | first :: second :: rest =>
      have scan : hasMutation (flat (first :: second :: rest)) ((first :: second :: rest).length - 1) 0 =
          .ok (Merkle.repeats (first :: second :: rest)) := @hasMutation_flat [] first (second :: rest)
      obtain ⟨tree, tree', extended, collapsed, cut⟩ := @level_flat sha256 (first :: second :: rest) (by simp)
      have fewer := @Merkle.length_up_lt _ (hashPair sha256) first second rest
      have some_left : (Merkle.up (hashPair sha256) (first :: second :: rest)).isEmpty = false := rfl
      rw [intoRootLoop, len_flat, if_pos (by rw [List.length_cons, List.length_cons]; omega), scan, Outcome.ok_bind, extended, Outcome.ok_bind, collapsed, Outcome.ok_bind, cut, ih _ _ (by omega), some_left,
        Merkle.root, Merkle.mutated, Bool.or_assoc]
      rfl

/-- The buffer gives the root of the tree and tells whether some level repeats a hash. -/
theorem intoRoot_eq (hashes : List Hash) : intoRoot sha256 (ofHashes hashes) =
    .ok (Merkle.root (hashPair sha256) emptyHash hashes, Merkle.mutated (hashPair sha256) hashes) := by
  rw [intoRoot, ofHashes_eq, intoRootLoop_flat _ _ _ (by rw [len_flat]; exact Nat.lt_succ_self _), Bool.false_or]
  cases hashes with
  | nil => rw [Merkle.mutated]; rfl
  | cons => rfl

/-- `into_root` computes the root of the list, and two lists without mutation that have
as many levels and the same root are equal, if no two of the pairs hashed for them collide. -/
theorem intoRoot_spec (sha256 : Bytes → Hash) :
    (∀ hashes, ∃ mutation, intoRoot sha256 (ofHashes hashes) =
      .ok (Merkle.root (hashPair sha256) emptyHash hashes, mutation)) ∧
    ∀ xs ys root, Set.InjOn (fun pair : Hash × Hash => hashPair sha256 pair.1 pair.2)
        {pair | pair ∈ Merkle.hashed (hashPair sha256) xs ∨ pair ∈ Merkle.hashed (hashPair sha256) ys} →
      Merkle.levels xs.length = Merkle.levels ys.length → intoRoot sha256 (ofHashes xs) = .ok (root, false) →
        intoRoot sha256 (ofHashes ys) = .ok (root, false) → xs = ys := by
  refine ⟨fun hashes => ⟨_, intoRoot_eq hashes⟩, fun xs ys root injective sameLevels ofXs ofYs => ?_⟩
  rw [intoRoot_eq, Outcome.ok.injEq, Prod.mk.injEq] at ofXs ofYs
  exact Merkle.root_inj xs ys injective sameLevels (ofXs.1.trans ofYs.1.symm) ofXs.2 ofYs.2

/-- A hash function that keeps the first byte. -/
def headHash (bytes : Bytes) : Hash := ByteArr.fill 32 (bytes.headD 0)

/-- Two leaves in two orders have two roots. -/
theorem intoRoot_spec_swapped :
    intoRoot headHash (ofHashes [ByteArr.fill 32 1, ByteArr.fill 32 2]) ≠
      intoRoot headHash (ofHashes [ByteArr.fill 32 2, ByteArr.fill 32 1]) := by
  intro same
  have hashed : ∀ a b : Hash, Merkle.hashed (hashPair headHash) [a, b] = [(a, b)] := by
    intro a b
    simp [Merkle.hashed, Merkle.up, Merkle.pairs]
  have clean : Merkle.mutated (hashPair headHash) [ByteArr.fill 32 1, ByteArr.fill 32 2] = false := by
    simp only [Merkle.mutated, Merkle.up, Merkle.pairs, List.map_cons, List.map_nil, Bool.or_false]
    decide
  obtain ⟨mutation, read⟩ := (intoRoot_spec headHash).1 [ByteArr.fill 32 1, ByteArr.fill 32 2]
  have first := read
  rw [intoRoot_eq, clean, Outcome.ok.injEq, Prod.mk.injEq] at first
  rw [← first.2] at read
  have equal := (intoRoot_spec headHash).2 [ByteArr.fill 32 1, ByteArr.fill 32 2] [ByteArr.fill 32 2, ByteArr.fill 32 1] _
    (fun p inP q inQ collide => ?_) rfl read (same ▸ read)
  · exact absurd equal (by decide)
  · simp only [hashed, List.mem_singleton, Set.mem_ofPred_eq] at inP inQ
    rcases inP with rfl | rfl <;> rcases inQ with rfl | rfl
    · rfl
    · exact absurd collide (by decide)
    · exact absurd collide (by decide)
    · rfl

end MerkleTree

/-! The pure `intoRoot` is the one on the buffer. -/

variable {sha256 : Bytes → Hash}

theorem collapse_eq_up (hashes : List Hash) : collapse sha256 hashes = Merkle.up (hashPair sha256) hashes := by
  fun_induction collapse sha256 hashes with
  | case1 left right rest ih => rw [ih]; rfl
  | case2 last => rfl
  | case3 => rfl

theorem hasRepeat_eq_repeats (hashes : List Hash) : hasRepeat hashes = Merkle.repeats hashes := by
  fun_induction hasRepeat hashes with
  | case1 first second rest ih => rw [Merkle.repeats, ih]
  | case2 hashes short =>
    cases hashes with
    | nil => rfl
    | cons first hashes =>
      cases hashes with
      | nil => rfl
      | cons second rest => exact absurd rfl (short first second rest)

theorem intoRoot_eq_tree (hashes : List Hash) (mutation : Bool) : intoRoot sha256 hashes mutation =
    (Merkle.root (hashPair sha256) emptyHash hashes,
      !hashes.isEmpty && (mutation || Merkle.mutated (hashPair sha256) hashes)) := by
  fun_induction intoRoot sha256 hashes mutation with
  | case1 mutation => simp [Merkle.root]
  | case2 root mutation => simp [Merkle.root, Merkle.mutated]
  | case3 mutation first second rest ih =>
    rw [ih, collapse_eq_up, hasRepeat_eq_repeats, Merkle.root, Merkle.mutated, Bool.or_assoc]
    rfl

theorem intoRoot_cons (hash : Hash) (hashes : List Hash) : intoRoot sha256 (hash :: hashes) false =
    (Merkle.root (hashPair sha256) emptyHash (hash :: hashes), Merkle.mutated (hashPair sha256) (hash :: hashes)) :=
  intoRoot_eq_tree _ _

theorem MerkleTree.intoRoot_refines (hashes : List Hash) :
    MerkleTree.intoRoot sha256 (MerkleTree.ofHashes hashes) = .ok (Bitlens.intoRoot sha256 hashes false) := by
  rw [MerkleTree.intoRoot_eq, intoRoot_eq_tree, Bool.false_or]
  cases hashes with
  | nil => rw [Merkle.mutated]; rfl
  | cons => rfl

end Bitlens

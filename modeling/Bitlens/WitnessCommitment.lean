import Bitlens.BlockApplication
import Bitlens.BlockServing
import Bitlens.MerkleTree

namespace Bitlens
open Lib

/-- One of the inputs comes with witness items. -/
def Tx.CarriesWitness (tx : Tx) : Prop :=
  ∃ wits, tx.witnessData = some wits ∧ ∃ w ∈ wits, ∃ count size,
    (deserializeVarint w : Outcome (UInt64 × Nat)) = .ok (count, size) ∧ count ≠ 0

namespace Block

/-- The last output of the first transaction that holds a commitment. -/
def commitment (block : Block) : Option TxOut :=
  ((block.txs.head?.map (·.txouts)).getD []).reverse.find? TxOut.commits

/-- The raw witness of the first input of the first transaction. -/
def coinbaseWitness (block : Block) : Option Bytes :=
  (block.txs.head?.bind (·.witnessData)).bind (·.head?)

/-- The leaves of the witness tree, where the first transaction counts as zero. -/
def witnessLeaves (block : Block) : List Hash :=
  emptyHash :: block.txs.tail.map (·.witnessHash)

/-- The output commits to the root of the witness tree and the only item of the witness. -/
def CommitsTo (sha256 : Bytes → Hash) (block : Block) (txout : TxOut) : Prop :=
  ∃ witness item, block.coinbaseWitness = some witness ∧ IsStack witness [item] ∧ item.length = 32 ∧
    (txout.script.drop 6).take 32 =
      (digestTwice sha256 ((Merkle.root (hashPair sha256) emptyHash block.witnessLeaves).1 ++ item)).1

/-- The rule for the witness data of a block. -/
def ValidWitness (sha256 : Bytes → Hash) (block : Block) : Prop :=
  match block.commitment with
  | some txout => block.CommitsTo sha256 txout
  | none => ∀ tx ∈ block.txs, ¬ tx.CarriesWitness

end Block

variable {sha256 : Bytes → Hash} {block : Block} {α : Type}

/-! What an accepted block is made of. -/

/-- The items that an array was read from. -/
theorem deserializeItems_parsed {item : Bytes → Parser (α × Nat)} {buffer : Bytes} {count offset stop : Nat}
    {arena : Arena} {consumed used : Nat} {xs : List α}
    (result : deserializeItems item buffer count offset arena consumed = .ok ((xs, stop), used)) :
    xs.length = count ∧ ∀ x ∈ xs, ∃ rest before n after, item rest arena before = .ok ((x, n), after) := by
  induction count generalizing offset consumed xs with
  | zero =>
    cases result
    exact ⟨rfl, fun _ absent => (List.not_mem_nil absent).elim⟩
  | succ count ih =>
    obtain ⟨rest, first, _, result⟩ := parser_bind_eq_ok.mp result
    obtain ⟨⟨value, n⟩, second, read, result⟩ := parser_bind_eq_ok.mp result
    obtain ⟨next, third, _, result⟩ := parser_bind_eq_ok.mp result
    obtain ⟨⟨values, last⟩, fourth, later, result⟩ := parser_bind_eq_ok.mp result
    cases result
    obtain ⟨length, all⟩ := ih later
    exact ⟨by rw [List.length_cons, length], List.forall_mem_cons.mpr ⟨⟨rest, first, n, second, read⟩, all⟩⟩

/-- An accepted transaction has inputs, and with witnesses one for each of them. -/
theorem deserializeTx_parsed {buffer : Bytes} {tx : Tx} {n : Nat} {arena : Arena} {consumed used : Nat}
    (result : deserializeTx (m := Parser) sha256 buffer arena consumed = .ok ((tx, n), used)) :
    tx.txins ≠ [] ∧ ∀ wits, tx.witnessData = some wits → wits.length = tx.txins.length := by
  obtain ⟨version, _, _, result⟩ := parser_bind_eq_ok.mp result
  obtain ⟨marker, _, _, result⟩ := parser_bind_eq_ok.mp result
  obtain ⟨rest, _, _, result⟩ := parser_bind_eq_ok.mp result
  obtain ⟨⟨txins, _⟩, _, _, result⟩ := parser_bind_eq_ok.mp result
  obtain ⟨offset, _, _, result⟩ := parser_bind_eq_ok.mp result
  obtain ⟨_, _, nonempty, result⟩ := parser_bind_eq_ok.mp result
  obtain ⟨rest, _, _, result⟩ := parser_bind_eq_ok.mp result
  obtain ⟨⟨txouts, _⟩, _, _, result⟩ := parser_bind_eq_ok.mp result
  obtain ⟨witnessesStart, _, _, result⟩ := parser_bind_eq_ok.mp result
  obtain ⟨⟨witnesses, witnessesEnd⟩, _, read, result⟩ := parser_bind_eq_ok.mp result
  obtain ⟨locktime, _, _, result⟩ := parser_bind_eq_ok.mp result
  obtain ⟨hash, _, _, result⟩ := parser_bind_eq_ok.mp result
  obtain ⟨witnessHash, _, _, result⟩ := parser_bind_eq_ok.mp result
  obtain ⟨consumed, _, _, result⟩ := parser_bind_eq_ok.mp result
  cases result
  constructor
  · rintro rfl
    cases nonempty
  · intro wits present
    dsimp only at present
    subst present
    unfold deserializeWitnesses at read
    split at read
    · obtain ⟨_, _, _, read⟩ := parser_bind_eq_ok.mp read
      obtain ⟨⟨all, _⟩, _, items, read⟩ := parser_bind_eq_ok.mp read
      cases read
      exact (deserializeItems_parsed items).1
    · cases read

theorem deserializeBlock_parsed {buffer : Bytes} {read : Nat} {arena : Arena} {consumed used : Nat}
    (result : deserializeBlock (m := Parser) sha256 buffer arena consumed = .ok ((block, read), used)) :
    ∀ tx ∈ block.txs, tx.txins ≠ [] ∧ ∀ wits, tx.witnessData = some wits → wits.length = tx.txins.length := by
  obtain ⟨⟨header, _⟩, _, _, result⟩ := parser_bind_eq_ok.mp result
  obtain ⟨rest, _, _, result⟩ := parser_bind_eq_ok.mp result
  obtain ⟨⟨txs, offset⟩, _, array, result⟩ := parser_bind_eq_ok.mp result
  obtain ⟨_, _, _, result⟩ := parser_bind_eq_ok.mp result
  obtain ⟨_, _, _, result⟩ := parser_bind_eq_ok.mp result
  obtain ⟨total, _, _, result⟩ := parser_bind_eq_ok.mp result
  cases result
  obtain ⟨⟨count, start⟩, _, _, array⟩ := parser_bind_eq_ok.mp array
  obtain ⟨_, _, _, items⟩ := parser_bind_eq_ok.mp array
  intro tx member
  obtain ⟨_, _, _, _, parsed⟩ := (deserializeItems_parsed items).2 tx member
  exact deserializeTx_parsed parsed

/-! Raw witnesses of one item. -/

theorem deserializeVarint_size {bytes : Bytes} {v : UInt64} {n : Nat}
    (read : (deserializeVarint bytes : Outcome (UInt64 × Nat)) = .ok (v, n)) :
    1 ≤ n ∧ (n = 1 → ∃ leader rest, bytes = leader :: rest ∧ v = leader.toUInt64) := by
  unfold deserializeVarint at read
  split at read
  · cases read
  · next leader rest =>
    split at read
    · cases read
      exact ⟨le_rfl, fun _ => ⟨leader, rest, rfl, rfl⟩⟩
    split at read
    · obtain ⟨_, _, read⟩ := Outcome.bind_eq_ok.mp read
      cases read
      exact ⟨by decide, fun absurd => by cases absurd⟩
    split at read
    · obtain ⟨_, _, read⟩ := Outcome.bind_eq_ok.mp read
      cases read
      exact ⟨by decide, fun absurd => by cases absurd⟩
    · obtain ⟨_, _, read⟩ := Outcome.bind_eq_ok.mp read
      cases read
      exact ⟨by decide, fun absurd => by cases absurd⟩

/-- One item behind the count. -/
theorem IsStack.single {witness item : Bytes} (stack : IsStack witness [item]) :
    ∃ count start consumed, (deserializeVarint witness : Outcome (UInt64 × Nat)) = .ok (count, start) ∧ count.toNat = 1 ∧
      (deserializeVarstr (witness.drop start) : Outcome (Bytes × Nat)) = .ok (item, consumed) ∧
      witness.length = start + consumed := by
  obtain ⟨count, start, varint, items⟩ := stack
  cases number : count.toNat with
  | zero =>
    rw [number] at items
    cases items
  | succ more =>
    rw [number] at items
    obtain ⟨rest, behind, items⟩ := Outcome.bind_eq_ok.mp items
    obtain ⟨⟨value, consumed⟩, read, items⟩ := Outcome.bind_eq_ok.mp items
    obtain ⟨next, sum, items⟩ := Outcome.bind_eq_ok.mp items
    obtain ⟨⟨values, last⟩, later, items⟩ := Outcome.bind_eq_ok.mp items
    cases items
    obtain ⟨_, rfl⟩ := withOffset_eq_ok behind
    obtain ⟨_, rfl⟩ := Profile.dev_add_eq_ok.mp sum
    cases more with
    | zero =>
      have total := (Prod.mk.inj (Outcome.ok.inj later)).2
      exact ⟨count, start, consumed, varint, number, read, total.symm⟩
    | succ more =>
      obtain ⟨_, _, later⟩ := Outcome.bind_eq_ok.mp later
      obtain ⟨_, _, later⟩ := Outcome.bind_eq_ok.mp later
      obtain ⟨_, _, later⟩ := Outcome.bind_eq_ok.mp later
      obtain ⟨_, _, later⟩ := Outcome.bind_eq_ok.mp later
      cases later

theorem toNat_leader {leader : UInt8} {n : Nat} (value : leader.toUInt64.toNat = n) (small : n < 256) :
    leader = UInt8.ofNat n := by
  rw [UInt8.toNat_toUInt64] at value
  refine UInt8.toNat_inj.mp ?_
  rw [value, UInt8.toNat_ofNat', Nat.mod_eq_of_lt small]

/-- A witness of 34 bytes with one item of 32 bytes is in its canonical form. -/
theorem IsStack.canonical {witness item : Bytes} (stack : IsStack witness [item]) (full : item.length = 32)
    (short : witness.length = 34) : witness = [1, 32] ++ item := by
  obtain ⟨count, start, consumed, varint, number, read, total⟩ := stack.single
  obtain ⟨length, size, varint', rfl, slice, same⟩ := deserializeVarstr_eq_ok read
  obtain ⟨least, single⟩ := deserializeVarint_size varint
  obtain ⟨least', single'⟩ := deserializeVarint_size varint'
  -- both compact sizes have one byte
  obtain ⟨leader, rest, rfl, rfl⟩ := single (by omega)
  obtain rfl : start = 1 := by omega
  obtain ⟨leader', rest', rfl, rfl⟩ := single' (by omega)
  obtain rfl : size = 1 := by omega
  obtain ⟨_, _, cut⟩ := getRange_eq_some.mp slice
  have whole : (leader' :: rest').take (1 + leader'.toUInt64.toNat) = leader' :: rest' := by
    refine List.take_of_length_le ?_
    simp only [List.length_cons] at total ⊢
    omega
  change ((leader' :: rest').take (1 + leader'.toUInt64.toNat)).drop 1 = item at cut
  rw [whole] at cut
  change rest' = item at cut
  rw [cut, toNat_leader number (by decide), toNat_leader (same.symm.trans full) (by decide)]
  rfl

theorem isStack_canonical {item : Bytes} (full : item.length = 32) : IsStack ([1, 32] ++ item) [item] := by
  have shape : [1, 32] ++ item = serializeArray serializeVarstr [item] := by
    simp only [serializeArray, serializeVarstr, List.flatMap_cons, List.flatMap_nil, List.append_nil, full]
    rfl
  rw [shape]
  refine isStack_serialize ?_ (by simp)
  rw [← shape, List.length_append, full]
  decide

/-! What the code accepts. -/

/-- The check of the code: it also asks for the canonical form of the witness, and for a
witness tree without equal neighbours. -/
def Block.CommitsRaw (sha256 : Bytes → Hash) (block : Block) (txout : TxOut) : Prop :=
  ∃ item, block.coinbaseWitness = some ([1, 32] ++ item) ∧ item.length = 32 ∧
    Merkle.mutated (hashPair sha256) block.witnessLeaves = false ∧
    (txout.script.drop 6).take 32 =
      (digestTwice sha256 ((Merkle.root (hashPair sha256) emptyHash block.witnessLeaves).1 ++ item)).1

theorem Block.commitsRaw_iff {txout : TxOut} : block.CommitsRaw sha256 txout ↔
    block.CommitsTo sha256 txout ∧ (∃ witness, block.coinbaseWitness = some witness ∧ witness.length = 34) ∧
      Merkle.mutated (hashPair sha256) block.witnessLeaves = false := by
  constructor
  · rintro ⟨item, present, full, clean, commits⟩
    refine ⟨⟨_, item, present, isStack_canonical full, full, commits⟩, ⟨_, present, ?_⟩, clean⟩
    rw [List.length_append, full]
    rfl
  · rintro ⟨⟨witness, item, present, stack, full, commits⟩, ⟨witness', present', short⟩, clean⟩
    cases Option.some.inj (present.symm.trans present')
    exact ⟨item, by rw [present, stack.canonical full short], full, clean, commits⟩

theorem getHash_commitment {txout : TxOut} (commits : txout.commits = true) :
    ∃ hash : Hash, expect (getHash txout.script 6) = .ok hash ∧ hash.1 = (txout.script.drop 6).take 32 := by
  have long : 38 ≤ txout.script.length := by
    rw [TxOut.commits, Bool.and_eq_true, decide_eq_true_eq] at commits
    exact commits.1
  have length : ((txout.script.drop 6).take 32).length = 32 := by
    rw [List.length_take, List.length_drop]
    omega
  have slice : getRange txout.script 6 (6 + 32) = some ((txout.script.drop 6).take 32) :=
    getRange_eq_some.mpr ⟨by decide, long, by rw [List.take_drop]⟩
  refine ⟨⟨_, length⟩, ?_, rfl⟩
  rw [getHash, getBytes, add_ok (by decide), Outcome.ok_bind, slice]
  change expect (orBail (ByteArr.ofBytes 32 _)) = _
  rw [ByteArr.ofBytes, dif_pos length]
  rfl

/-- Two checks behind each other. -/
theorem ensure_ensure (p q : Bool) : (Outcome.ensure p >>= fun _ => Outcome.ensure q) ≠ .fault ∧
    ((Outcome.ensure p >>= fun _ => Outcome.ensure q) = .ok () ↔ p = true ∧ q = true) := by
  cases p <;> cases q <;> simp [Outcome.ensure]

/-- What is left of the check behind the canonical form of the witness. -/
theorem Block.commitsRaw_of_canonical {item : Bytes} {txout : TxOut} {hash : Hash}
    (present : block.coinbaseWitness = some ([1, 32] ++ item)) (full : item.length = 32)
    (value : hash.1 = (txout.script.drop 6).take 32) : block.CommitsRaw sha256 txout ↔
      Merkle.mutated (hashPair sha256) block.witnessLeaves = false ∧
        hash = digestTwice sha256 ((Merkle.root (hashPair sha256) emptyHash block.witnessLeaves).1 ++ item) := by
  constructor
  · rintro ⟨item', present', _, clean, commits⟩
    cases List.append_cancel_left (Option.some.inj (present.symm.trans present'))
    exact ⟨clean, Subtype.ext (value.trans commits)⟩
  · rintro ⟨clean, commits⟩
    exact ⟨item, present, full, clean, by rw [← value, commits]⟩

/-- A block that commits is accepted on its raw witness. -/
theorem verifyWitnessCommitment_of_commits {coinbase : Tx} {rest : List Tx} {header : BlockHeaderOwned} {txout : TxOut}
    (found : coinbase.txouts.reverse.find? TxOut.commits = some txout)
    (complete : ∀ wits, coinbase.witnessData = some wits → wits ≠ []) :
    verifyWitnessCommitment sha256 ⟨header, coinbase :: rest⟩ ≠ .fault ∧
      (verifyWitnessCommitment sha256 ⟨header, coinbase :: rest⟩ = .ok () ↔
        Block.CommitsRaw sha256 ⟨header, coinbase :: rest⟩ txout) := by
  obtain ⟨hash, read, value⟩ := getHash_commitment (List.find?_some found)
  rw [verifyWitnessCommitment, List.head?_cons, Outcome.unwrap_some, Outcome.ok_bind, found]
  dsimp only
  cases present : coinbase.witnessData with
  | none =>
    refine ⟨(fun absurd => nomatch absurd), iff_of_false (fun absurd => nomatch absurd) ?_⟩
    rintro ⟨item, witness, _⟩
    simp [Block.coinbaseWitness, present] at witness
  | some wits =>
    cases wits with
    | nil => exact absurd rfl (complete [] present)
    | cons witness wits =>
      have same : Block.coinbaseWitness ⟨header, coinbase :: rest⟩ = some witness := by
        simp [Block.coinbaseWitness, present]
      rw [Outcome.orErr_some, Outcome.ok_bind, List.head?_cons, Outcome.unwrap_some, Outcome.ok_bind]
      by_cases canonical : witness.length = 34 ∧ witness.take 2 = [1, 32]
      · have split : witness = [1, 32] ++ witness.drop 2 := by
          conv_lhs => rw [← List.take_append_drop 2 witness, canonical.2]
        have full : (witness.drop 2).length = 32 := by rw [List.length_drop, canonical.1]
        rw [split] at same
        rw [Block.commitsRaw_of_canonical same full value, decide_eq_true canonical, read]
        rw [List.tail_cons, intoRoot_cons]
        have checks := ensure_ensure
          (decide (Merkle.mutated (hashPair sha256) (emptyHash :: rest.map (·.witnessHash)) = false))
          (decide (hash = digestTwice sha256
            ((Merkle.root (hashPair sha256) emptyHash (emptyHash :: rest.map (·.witnessHash))).1 ++ witness.drop 2)))
        rw [decide_eq_true_eq, decide_eq_true_eq] at checks
        exact checks
      · rw [decide_eq_false canonical]
        refine ⟨(fun absurd => nomatch absurd), iff_of_false (fun absurd => nomatch absurd) ?_⟩
        rintro ⟨item, present', full, _⟩
        cases Option.some.inj (same.symm.trans present')
        exact canonical ⟨by rw [List.length_append, full]; rfl, rfl⟩

/-- The code judges an accepted block as the rule does exactly when it has a transaction,
comes with no witness data unless it commits to them, and, where the rule is met by a
commitment, has the canonical form of the witness and no equal neighbours in the tree. -/
theorem verifyWitnessCommitment_iff {buffer : Bytes} {read : Nat} {arena : Arena} {consumed used : Nat}
    (accepted : deserializeBlock (m := Parser) sha256 buffer arena consumed = .ok ((block, read), used)) :
    (verifyWitnessCommitment sha256 block ≠ .fault ∧
        (verifyWitnessCommitment sha256 block = .ok () ↔ block.ValidWitness sha256)) ↔
      block.txs ≠ [] ∧ (block.commitment = none → ∀ tx ∈ block.txs, ¬ tx.CarriesWitness) ∧
        ∀ txout, block.commitment = some txout → block.CommitsTo sha256 txout →
          (∃ witness, block.coinbaseWitness = some witness ∧ witness.length = 34) ∧
            Merkle.mutated (hashPair sha256) block.witnessLeaves = false := by
  have parsed := deserializeBlock_parsed accepted
  obtain ⟨header, txs⟩ := block
  cases txs with
  | nil =>
    refine iff_of_false (fun follows => follows.1 rfl) fun claim => claim.1 rfl
  | cons coinbase rest =>
    have complete : ∀ wits, coinbase.witnessData = some wits → wits ≠ [] := by
      rintro wits present rfl
      obtain ⟨inputs, counts⟩ := parsed coinbase List.mem_cons_self
      exact inputs (List.length_eq_zero_iff.mp (counts [] present).symm)
    cases found : coinbase.txouts.reverse.find? TxOut.commits with
    | none =>
      have silent : Block.commitment ⟨header, coinbase :: rest⟩ = none := found
      have passes : verifyWitnessCommitment sha256 ⟨header, coinbase :: rest⟩ = .ok () := by
        rw [verifyWitnessCommitment, List.head?_cons, Outcome.unwrap_some, Outcome.ok_bind, found]
        rfl
      rw [passes, Block.ValidWitness, silent]
      simp
    | some txout =>
      have commits : Block.commitment ⟨header, coinbase :: rest⟩ = some txout := found
      obtain ⟨returns, accepts⟩ := @verifyWitnessCommitment_of_commits sha256 coinbase rest header txout found complete
      rw [accepts, Block.ValidWitness, commits, Block.commitsRaw_iff]
      constructor
      · rintro ⟨_, follows⟩
        refine ⟨List.cons_ne_nil _ _, (fun absent => by cases absent), fun other same rule => ?_⟩
        cases same
        exact (follows.mpr rule).2
      · rintro ⟨_, _, canonical⟩
        exact ⟨returns, fun accepted => accepted.1, fun rule => ⟨rule, canonical txout rfl rule⟩⟩

/-- A block whose coinbase transaction commits to the witness of the other one. -/
def witnessBlock : Block where
  header := ⟨0x20000000, hashOf 5, hashOf 0xb7569cde9e30eebee7032f1894914d75daf90d0f520a8927eba2c6d32811cd76,
    1503539857, 0x207fffff, 4, 2, hashOf 0xc0a61b6be5f308b3d13f53a705a9d01eff28f3cd6dd05e374a4371eb85400c08⟩
  txs := [
    ⟨1, 0, [⟨emptyHash, 0xFFFFFFFF, 0xFFFFFFFF, [3, 32, 90, 7]⟩],
      [⟨1250000000, [0x51]⟩, ⟨0, [0x6a, 0x24, 0xaa, 0x21, 0xa9, 0xed] ++
        beBytes 32 0x14f1375abf048fcb158d95c767aaf7d7ef892ef5dbe1b9021f66087f469f0a40⟩],
      some [[1, 32] ++ beBytes 32 0],
      hashOf 0x92123a6a64f46bde4bbc9ca5998d52f9c1c1f768a04601fdaa29c0dbb85cbe3c,
      hashOf 0x11dac7485a1451e253c33e28a09fdaabea8223daa9ed16de7d8e8526d068916c⟩,
    ⟨2, 0, [⟨hashOf 0x7fd78d411d757acfad48784ee0cbc3069ec1de30b3981d28c82598ef44a80e57, 0, 0xFFFFFFFE, []⟩],
      [⟨5000000000, [0, 20] ++ beBytes 20 0x0102030405060708090a0b0c0d0e0f1011121314⟩],
      some [[2, 4, 0x30, 0x30, 0x30, 0x30, 3, 2, 2, 2]],
      hashOf 0xb6a3995d79169ab1cc959d84927939cd11b90d06ab25e27a2f019c1910595bb0,
      hashOf 0x1c39db58d7b3028c01e45a7727557cb88d4a2e7d8d628a43f3fb2a2c6e4326dc⟩]

theorem witnessBlock_accepted :
    deserializeBlock (m := Parser) Sha256.sha256 (serializeBlock witnessBlock) megabyteArena 0 =
      .ok ((witnessBlock, 323), 408) := by
  decide +kernel

theorem verifyWitnessCommitment_iff_committed :
    verifyWitnessCommitment Sha256.sha256 witnessBlock = .ok () ∧ witnessBlock.ValidWitness Sha256.sha256 := by
  have passes : verifyWitnessCommitment Sha256.sha256 witnessBlock = .ok () := by decide +kernel
  have follows := (verifyWitnessCommitment_iff witnessBlock_accepted).mpr ⟨List.cons_ne_nil _ _, (fun absent => by cases absent),
    fun txout _ _ => ⟨⟨_, rfl, rfl⟩, by decide +kernel⟩⟩
  exact ⟨passes, follows.2.mp passes⟩

/-- A block without transactions, whose Merkle root is zero. -/
def emptyBlock : Block :=
  ⟨⟨1, emptyHash, emptyHash, 1503539857, 0x207fffff, 3, 0,
    hashOf 0x8d8746f573e34ea8fb0dbb2a30c6bcc9e54add56a07e1cda7f02515d44aa6a15⟩, []⟩

theorem emptyBlock_accepted :
    deserializeBlock (m := Parser) Sha256.sha256 (serializeBlock emptyBlock) megabyteArena 0 =
      .ok ((emptyBlock, 81), 0) := by
  decide +kernel

/-- A block without transactions is accepted, and makes the check panic. -/
theorem verifyWitnessCommitment_fails :
    ¬ ∀ (sha256 : Bytes → Hash) (buffer : Bytes) (block : Block) (arena : Arena) (consumed read used : Nat),
      deserializeBlock (m := Parser) sha256 buffer arena consumed = .ok ((block, read), used) →
        verifyWitnessCommitment sha256 block ≠ .fault ∧
          (verifyWitnessCommitment sha256 block = .ok () ↔ block.ValidWitness sha256) := by
  intro claim
  exact (claim _ _ _ _ _ _ _ emptyBlock_accepted).1 rfl

end Bitlens

import Bitlens.RoundTrip
import Bitlens.Target

namespace Bitlens
open Lib

/-! The proof-of-work check with the sign and the overflow of a compact target. -/

structure CompactTarget where
  target : Nat
  negative : Bool
  overflow : Bool

/-- A compact target with its sign bit, and whether it is shifted out of 256 bits. -/
def setCompact (bits : UInt32) : CompactTarget :=
  let size := bits.toNat >>> 24
  let mantissa := bits.toNat &&& 0x007FFFFF
  let word := if size ≤ 3 then mantissa >>> (8 * (3 - size)) else mantissa
  { target := if size ≤ 3 then word else (word <<< (8 * (size - 3))) % 2 ^ 256
    negative := decide (word ≠ 0 ∧ bits.toNat &&& 0x00800000 ≠ 0)
    overflow := decide (word ≠ 0 ∧ (34 < size ∨ (0xFF < word ∧ 33 < size) ∨ (0xFFFF < word ∧ 32 < size))) }

/-- The bits stand for a target that a header may have. -/
def ValidBits (bits : UInt32) : Prop :=
  (setCompact bits).negative = false ∧ (setCompact bits).overflow = false ∧ (setCompact bits).target ≠ 0 ∧
    (setCompact bits).target ≤ powLimit

instance (bits : UInt32) : Decidable (ValidBits bits) :=
  inferInstanceAs (Decidable (_ ∧ _ ∧ _ ∧ _))

/-- The bits are valid and the hash is at most their target. -/
def CheckProofOfWork (hash : Hash) (bits : UInt32) : Prop :=
  ValidBits bits ∧ leNat hash.1 ≤ (setCompact bits).target

/-- The field `bits` of a serialized header. -/
def headerBits (header : Bytes) : UInt32 :=
  UInt32.ofNat (leNat ((header.take 76).drop 72))

theorem setCompact_target (bits : UInt32) : (setCompact bits).target = u256FromCompact bits := by
  dsimp only [setCompact, u256FromCompact]
  split <;> rfl

variable {sha256 : Bytes → Hash} {header rest : Bytes} {count : UInt64} {size : Nat}

theorem getRange_front {start stop : Nat} (ordered : start ≤ stop) (inside : stop ≤ header.length) :
    getRange (header ++ rest) start stop = some ((header.take stop).drop start) := by
  refine getRange_eq_some.mpr ⟨ordered, by rw [List.length_append]; omega, ?_⟩
  rw [List.take_append_of_le_length inside]

theorem getBytes_front {offset width : Nat} (inside : offset + width ≤ header.length) (small : offset + width < 2 ^ 64) :
    (getBytes width (header ++ rest) offset : Outcome Bytes) = .ok ((header.take (offset + width)).drop offset) := by
  rw [getBytes, add_ok small, Outcome.ok_bind, getRange_front (Nat.le_add_right _ _) inside]
  rfl

theorem getU32Le_front {offset : Nat} (inside : offset + 4 ≤ header.length) (small : offset + 4 < 2 ^ 64) :
    (getU32Le (header ++ rest) offset : Outcome UInt32) =
      .ok (UInt32.ofNat (leNat ((header.take (offset + 4)).drop offset))) := by
  rw [getU32Le, getBytes_front inside small]
  rfl

theorem getHash_front {offset : Nat} (inside : offset + 32 ≤ header.length) (small : offset + 32 < 2 ^ 64) :
    ∃ hash, (getHash (header ++ rest) offset : Outcome Hash) = .ok hash := by
  have length : ((header.take (offset + 32)).drop offset).length = 32 := by
    rw [List.length_drop, List.length_take]
    omega
  rw [getHash, getBytes_front inside small, Outcome.ok_bind, ByteArr.ofBytes, dif_pos length]
  exact ⟨_, rfl⟩

/-- A header with its count of transactions is accepted when it satisfies `is_valid`. -/
theorem deserializeBlockHeader_ok_iff (length : header.length = 80)
    (varint : (deserializeVarint rest : Outcome (UInt64 × Nat)) = .ok (count, size)) :
    (∃ v, (deserializeBlockHeader sha256 (header ++ rest) : Outcome (BlockHeaderOwned × Nat)) = .ok v) ↔
      isValid (digestTwice sha256 header) (headerBits header) := by
  obtain ⟨parent, atParent⟩ : ∃ hash, (getHash (header ++ rest) 4 : Outcome Hash) = .ok hash :=
    getHash_front (by omega) (by decide)
  obtain ⟨merkleRoot, atRoot⟩ : ∃ hash, (getHash (header ++ rest) 36 : Outcome Hash) = .ok hash :=
    getHash_front (by omega) (by decide)
  have bits : (getU32Le (header ++ rest) 72 : Outcome UInt32) = .ok (headerBits header) :=
    getU32Le_front (by omega) (by decide)
  have whole : getRange (header ++ rest) 0 80 = some header := by
    rw [getRange_front (Nat.zero_le _) (by omega), List.drop_zero, ← length, List.take_length]
  have bound := deserializeVarint_le varint
  rw [deserializeBlockHeader, getU32Le_front (by omega) (by decide), Outcome.ok_bind, atParent, Outcome.ok_bind, atRoot,
    Outcome.ok_bind, getU32Le_front (by omega) (by decide), Outcome.ok_bind, bits, Outcome.ok_bind,
    getU32Le_front (by omega) (by decide), Outcome.ok_bind, withOffset_ok rfl length, Outcome.ok_bind, varint,
    Outcome.ok_bind, whole]
  change (∃ v, (Outcome.ok header >>= _) = .ok v) ↔ _
  rw [Outcome.ok_bind]
  dsimp only
  by_cases valid : isValid (digestTwice sha256 header) (headerBits header)
  · rw [ensure_ok valid, Outcome.ok_bind, add_ok (by omega)]
    exact iff_of_true ⟨_, rfl⟩ valid
  · rw [ensure, if_neg valid]
    exact iff_of_false (fun ⟨_, absent⟩ => nomatch absent) valid

/-- Which headers are judged as the proof-of-work check demands: with valid bits those
whose hash is not the target itself, and else those whose hash is not below the number
that the bits stand for without their sign and overflow. -/
theorem deserializeBlockHeader_iff (length : header.length = 80)
    (varint : (deserializeVarint rest : Outcome (UInt64 × Nat)) = .ok (count, size)) :
    ((∃ v, (deserializeBlockHeader sha256 (header ++ rest) : Outcome (BlockHeaderOwned × Nat)) = .ok v) ↔
        CheckProofOfWork (digestTwice sha256 header) (headerBits header)) ↔
      (ValidBits (headerBits header) →
          leNat (digestTwice sha256 header).1 ≠ u256FromCompact (headerBits header)) ∧
        (¬ ValidBits (headerBits header) →
          u256FromCompact (headerBits header) ≤ leNat (digestTwice sha256 header).1) := by
  rw [deserializeBlockHeader_ok_iff length varint, CheckProofOfWork, setCompact_target, isValid]
  by_cases valid : ValidBits (headerBits header)
  · simp only [valid, true_and, not_true_eq_false, false_implies, and_true, true_implies]
    omega
  · simp only [valid, false_and, iff_false, not_false_eq_true, true_implies, false_implies, true_and, Nat.not_lt]

/-- A header with the bits of genesis. -/
def easyHeader : Bytes :=
  List.replicate 72 0 ++ [0xFF, 0xFF, 0x00, 0x1D] ++ List.replicate 4 0

/-- The target of these bits as a hash. -/
def targetHash : Hash :=
  ⟨List.replicate 26 0 ++ [0xFF, 0xFF] ++ List.replicate 4 0, rfl⟩

theorem deserializeBlockHeader_iff_easy :
    ((∃ v, (deserializeBlockHeader (fun _ => emptyHash) (easyHeader ++ [1]) : Outcome (BlockHeaderOwned × Nat)) = .ok v) ↔
        CheckProofOfWork (digestTwice (fun _ => emptyHash) easyHeader) (headerBits easyHeader)) ↔
      (ValidBits (headerBits easyHeader) →
          leNat (digestTwice (fun _ => emptyHash) easyHeader).1 ≠ u256FromCompact (headerBits easyHeader)) ∧
        (¬ ValidBits (headerBits easyHeader) →
          u256FromCompact (headerBits easyHeader) ≤ leNat (digestTwice (fun _ => emptyHash) easyHeader).1) :=
  @deserializeBlockHeader_iff (fun _ => emptyHash) easyHeader [1] 1 1 rfl rfl

/-- A header whose hash is its target is rejected. -/
theorem deserializeBlockHeader_fails :
    ¬ ∀ (sha256 : Bytes → Hash) (header rest : Bytes) (count : UInt64) (size : Nat), header.length = 80 →
      (deserializeVarint rest : Outcome (UInt64 × Nat)) = .ok (count, size) →
        ((∃ v, (deserializeBlockHeader sha256 (header ++ rest) : Outcome (BlockHeaderOwned × Nat)) = .ok v) ↔
          CheckProofOfWork (digestTwice sha256 header) (headerBits header)) := by
  intro claim
  have follows := claim (fun _ => targetHash) easyHeader [1] 1 1 rfl rfl
  rw [@deserializeBlockHeader_ok_iff (fun _ => targetHash) easyHeader [1] 1 1 rfl rfl] at follows
  have checked : CheckProofOfWork (digestTwice (fun _ => targetHash) easyHeader) (headerBits easyHeader) :=
    ⟨by decide, by decide⟩
  exact absurd (follows.mpr checked) (by decide)

end Bitlens

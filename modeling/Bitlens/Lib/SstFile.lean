import Mathlib.Data.List.Sort
import Mathlib.Order.Basic
import Bitlens.Lib.Map

namespace Bitlens.Lib

variable {α κ υ : Type}

/-- `after` is `before` overwritten with the pairs of `content`. -/
def Holds (content : κ → υ → Prop) (before after : κ → Option υ) : Prop :=
  ∀ k, (∀ v, content k v → after k = some v) ∧ ((∀ v, ¬ content k v) → after k = before k)

variable {content other : κ → υ → Prop} {before middle after : κ → Option υ}

theorem Holds.unique {after' : κ → Option υ} (one : Holds content before after)
    (two : Holds content before after') : after = after' := by
  funext k
  by_cases present : ∃ v, content k v
  · obtain ⟨v, member⟩ := present
    rw [(one k).1 v member, (two k).1 v member]
  · have absent : ∀ v, ¬ content k v := fun v member => present ⟨v, member⟩
    rw [(one k).2 absent, (two k).2 absent]

theorem Holds.trans (first : Holds content before middle) (second : Holds other middle after)
    (agree : ∀ k v w, content k v → other k w → v = w) :
    Holds (fun k v => content k v ∨ other k v) before after := by
  intro k
  refine ⟨fun v member => ?_, fun absent => ?_⟩
  · by_cases later : ∃ w, other k w
    · obtain ⟨w, inOther⟩ := later
      rcases member with inFirst | inSecond
      · rw [agree k v w inFirst inOther]
        exact (second k).1 w inOther
      · exact (second k).1 v inSecond
    · have absent : ∀ w, ¬ other k w := fun w inOther => later ⟨w, inOther⟩
      rw [(second k).2 absent]
      exact (first k).1 v (member.resolve_right (absent v))
  · rw [(second k).2 fun v inOther => absent v (Or.inr inOther)]
    exact (first k).2 fun v inContent => absent v (Or.inl inContent)

theorem Holds.congr (holds : Holds content before after) (same : ∀ k v, content k v ↔ other k v) :
    Holds other before after := by
  have equal : content = other := funext fun k => funext fun v => propext (same k v)
  rw [← equal]
  exact holds

section Sorting

variable [LinearOrder κ] {before middle after : κ → Option υ} {entries : List (κ × υ)}

/-- A result that an unstable sort by key may produce. -/
def SortsBy (key : α → κ) (xs ys : List α) : Prop :=
  ys.Perm xs ∧ ys.Pairwise fun a b => key a ≤ key b

instance [DecidableEq α] (key : α → κ) (xs ys : List α) : Decidable (SortsBy key xs ys) :=
  inferInstanceAs (Decidable (_ ∧ _))

theorem exists_sortsBy (key : α → κ) (xs : List α) : ∃ ys, SortsBy key xs ys := by
  refine ⟨xs.mergeSort fun a b => decide (key a ≤ key b), List.mergeSort_perm _ _, ?_⟩
  have sorted := @List.pairwise_mergeSort _ (fun a b => decide (key a ≤ key b))
    (fun a b c first second => by
      rw [decide_eq_true_eq] at first second ⊢
      exact le_trans first second)
    (fun a b => by
      rw [Bool.or_eq_true, decide_eq_true_eq, decide_eq_true_eq]
      exact le_total _ _) xs
  exact sorted.imp fun order => by simpa using order

/-- Among equal keys an unstable sort may put any element first. -/
theorem exists_sortsBy_first (key : α → κ) {xs : List α} {x : α} (member : x ∈ xs) :
    ∃ front back, SortsBy key xs (front ++ x :: back) ∧ ∀ a ∈ front, key a < key x := by
  obtain ⟨left, right, rfl⟩ := List.append_of_mem member
  obtain ⟨front, permFront, sortedFront⟩ :=
    exists_sortsBy key ((left ++ right).filter fun a => decide (key a < key x))
  obtain ⟨back, permBack, sortedBack⟩ :=
    exists_sortsBy key ((left ++ right).filter fun a => !decide (key a < key x))
  have below : ∀ a ∈ front, key a < key x := by
    intro a inFront
    have := (List.mem_filter.mp (permFront.mem_iff.mp inFront)).2
    simpa using this
  have above : ∀ a ∈ back, key x ≤ key a := by
    intro a inBack
    have := (List.mem_filter.mp (permBack.mem_iff.mp inBack)).2
    simpa using this
  refine ⟨front, back, ⟨?_, ?_⟩, below⟩
  · have whole : (front ++ back).Perm (left ++ right) :=
      (permFront.append permBack).trans (List.filter_append_perm _ _)
    calc front ++ x :: back
        |>.Perm (x :: (front ++ back)) := List.perm_middle
      _ |>.Perm (x :: (left ++ right)) := whole.cons x
      _ |>.Perm (left ++ x :: right) := List.perm_middle.symm
  · rw [List.pairwise_append, List.pairwise_cons]
    refine ⟨sortedFront, ⟨above, sortedBack⟩, ?_⟩
    intro a inFront b inBack
    rcases List.mem_cons.mp inBack with same | later
    · rw [same]
      exact le_of_lt (below a inFront)
    · exact le_trans (le_of_lt (below a inFront)) (above b later)

/-- The keys of a file in the order of writing. -/
def StrictKeys (entries : List (κ × υ)) : Prop :=
  (entries.map Prod.fst).Pairwise (· < ·)

instance (entries : List (κ × υ)) : Decidable (StrictKeys entries) :=
  inferInstanceAs (Decidable (List.Pairwise _ _))

/-- Ingesting a file: each of its entries overwrites the older value. -/
def ingest (store : κ → Option υ) (entries : List (κ × υ)) : κ → Option υ :=
  entries.foldl (fun map entry => mapInsert map entry.1 entry.2) store

/-- A file whose keys do not increase strictly cannot be written, and the store
stays as it is. -/
def writeSst (store : κ → Option υ) (entries : List (κ × υ)) : κ → Option υ :=
  if StrictKeys entries then ingest store entries else store

theorem ingest_holds (strict : StrictKeys entries) (store : κ → Option υ) :
    Holds (fun k v => (k, v) ∈ entries) store (ingest store entries) := by
  induction entries generalizing store with
  | nil => exact fun k => ⟨fun v member => (List.not_mem_nil member).elim, fun _ => rfl⟩
  | cons entry entries ih =>
    obtain ⟨least, strict⟩ := List.pairwise_cons.mp strict
    have fresh : ∀ v, (entry.1, v) ∉ entries := fun v member =>
      absurd (least entry.1 (List.mem_map.mpr ⟨_, member, rfl⟩)) (lt_irrefl _)
    have rest := ih strict (mapInsert store entry.1 entry.2)
    intro k
    refine ⟨fun v member => ?_, fun absent => ?_⟩
    · rcases List.mem_cons.mp member with same | later
      · have shape : entry = (k, v) := same.symm
        subst shape
        exact ((rest k).2 fresh).trans (mapInsert_self _ _ _)
      · exact (rest k).1 v later
    · have apart : k ≠ entry.1 := by
        rintro rfl
        exact absent entry.2 List.mem_cons_self
      exact ((rest k).2 fun v later => absent v (List.mem_cons_of_mem _ later)).trans (mapInsert_of_ne apart)

theorem writeSst_holds (strict : StrictKeys entries) (store : κ → Option υ) :
    Holds (fun k v => (k, v) ∈ entries) store (writeSst store entries) := by
  rw [writeSst, if_pos strict]
  exact ingest_holds strict store

/-- Distinct keys increase strictly once sorted, and only then. -/
theorem SortsBy.strictKeys_iff {xs ys : List (κ × υ)} (sorts : SortsBy Prod.fst xs ys) :
    StrictKeys ys ↔ (xs.map Prod.fst).Nodup := by
  rw [← (sorts.1.map Prod.fst).nodup_iff]
  constructor
  · exact fun strict => strict.imp fun order => ne_of_lt order
  · intro keys
    have sorted : (ys.map Prod.fst).Pairwise (· ≤ ·) := List.pairwise_map.mpr sorts.2
    exact (sorted.and keys).imp fun both => lt_of_le_of_ne both.1 both.2

/-- A loop that skips elements with the key of the element kept last. -/
def skipRepeats (key : α → κ) : κ → List α → List α
  | _, [] => []
  | last, x :: xs => if key x = last then skipRepeats key last xs else x :: skipRepeats key (key x) xs

theorem skipRepeats_subset (key : α → κ) {last : κ} {xs : List α} {x : α} (member : x ∈ skipRepeats key last xs) :
    x ∈ xs := by
  induction xs generalizing last with
  | nil => exact member
  | cons y ys ih =>
    rw [skipRepeats] at member
    split at member
    · exact List.mem_cons_of_mem _ (ih member)
    · rcases List.mem_cons.mp member with same | later
      · rw [same]
        exact List.mem_cons_self
      · exact List.mem_cons_of_mem _ (ih later)

/-- Over a sorted list the kept keys increase strictly. -/
theorem skipRepeats_strict (key : α → κ) {last : κ} {xs : List α} (sorted : xs.Pairwise fun a b => key a ≤ key b)
    (least : ∀ x ∈ xs, last ≤ key x) :
    (∀ x ∈ skipRepeats key last xs, last < key x) ∧
      (skipRepeats key last xs).Pairwise fun a b => key a < key b := by
  induction xs generalizing last with
  | nil => exact ⟨fun _ member => (List.not_mem_nil member).elim, .nil⟩
  | cons y ys ih =>
    obtain ⟨lowest, sorted⟩ := List.pairwise_cons.mp sorted
    rw [skipRepeats]
    split
    · exact ih sorted fun x member => least x (List.mem_cons_of_mem _ member)
    · next other =>
      obtain ⟨above, strict⟩ := ih sorted lowest
      have first : last < key y := lt_of_le_of_ne (least y List.mem_cons_self) (Ne.symm other)
      refine ⟨fun x member => ?_, List.pairwise_cons.mpr ⟨above, strict⟩⟩
      rcases List.mem_cons.mp member with same | later
      · rw [same]
        exact first
      · exact lt_trans first (above x later)

/-- Every key other than the initial one is kept once. -/
theorem skipRepeats_keys (key : α → κ) {last : κ} {xs : List α} {x : α} (member : x ∈ xs) (other : key x ≠ last) :
    ∃ y ∈ skipRepeats key last xs, key y = key x := by
  induction xs generalizing last with
  | nil => cases member
  | cons y ys ih =>
    rw [skipRepeats]
    split
    · next repeated =>
      rcases List.mem_cons.mp member with same | later
      · rw [same] at other
        exact absurd repeated other
      · exact ih later other
    · by_cases same : key x = key y
      · exact ⟨y, List.mem_cons_self, same.symm⟩
      · rcases List.mem_cons.mp member with equal | later
        · rw [equal] at same
          exact absurd rfl same
        · obtain ⟨z, kept, equal⟩ := ih later same
          exact ⟨z, List.mem_cons_of_mem _ kept, equal⟩

/-- The first element of its key is the one kept. -/
theorem skipRepeats_first (key : α → κ) {last : κ} {front back : List α} {x : α} (fresh : ∀ a ∈ front, key a ≠ key x)
    (other : key x ≠ last) : x ∈ skipRepeats key last (front ++ x :: back) := by
  induction front generalizing last with
  | nil =>
    rw [List.nil_append, skipRepeats, if_neg other]
    exact List.mem_cons_self
  | cons a front ih =>
    have rest : ∀ b ∈ front, key b ≠ key x := fun b member => fresh b (List.mem_cons_of_mem _ member)
    rw [List.cons_append, skipRepeats]
    split
    · exact ih rest other
    · exact List.mem_cons_of_mem _ (ih rest (fresh a List.mem_cons_self).symm)

end Sorting

end Bitlens.Lib

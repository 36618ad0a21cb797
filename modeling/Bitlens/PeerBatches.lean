import Bitlens.AddrMan

namespace Bitlens

/-- A batch of rows under new keys is inserted as a whole. -/
theorem foldlM_insertKeyed {ρ τ κ : Type} [DecidableEq κ] {key : τ → κ} {row : ρ → τ} {requests : List ρ}
    {rows : List τ} (distinct : ((rows ++ requests.map row).map key).Nodup) :
    requests.foldlM (fun rows r => insertKeyed key rows (row r)) rows = some (rows ++ requests.map row) := by
  induction requests generalizing rows with
  | nil => simp
  | cons r requests ih =>
    have whole : rows ++ (r :: requests).map row = (rows ++ [row r]) ++ requests.map row := by simp
    rw [whole] at distinct ⊢
    have fresh : key (row r) ∉ rows.map key := by
      rw [List.map_append, List.map_append] at distinct
      have front := (List.nodup_append.mp distinct).1
      intro member
      exact (List.nodup_append.mp front).2.2 _ member _ (by simp) rfl
    rw [List.foldlM_cons, insertKeyed, if_neg fresh]
    exact ih distinct

theorem deletePeerRows_sublist {requests : List DeletePeerRequest} {rows rows' : List AddressPortNetwork}
    (result : requests.foldlM deletePeerRows rows = some rows') : rows'.Sublist rows := by
  induction requests generalizing rows with
  | nil =>
    cases result
    exact List.Sublist.refl _
  | cons r requests ih => exact (ih result).trans List.filter_sublist

namespace Batcher

variable {ρ τ κ : Type} {execute : List τ → ρ → Option (List τ)} {count : Nat} {poisoned poisoned' : Bool}
variable {b b' : Batcher ρ} {rows rows' : List τ}

/-- A request that fails on all tables fails its batch. -/
theorem foldlM_of_failing {requests : List ρ} {r : ρ} (member : r ∈ requests) (fails : ∀ rows, execute rows r = none) :
    requests.foldlM execute rows = none := by
  induction requests generalizing rows with
  | nil => cases member
  | cons q requests ih =>
    rw [List.foldlM_cons]
    rcases List.mem_cons.mp member with rfl | later
    · rw [fails]
      rfl
    · exact Option.bind_eq_none_iff.mpr fun after _ => ih later

/-- What a flush can do. -/
inductive Flushes (execute : List τ → ρ → Option (List τ)) (count : Nat) (poisoned : Bool) (b : Batcher ρ)
    (rows : List τ) : Batcher ρ → List τ → Bool → Prop
  | commits {after : List τ} : poisoned = false → (b.pending.take count).foldlM execute rows = some after →
      Flushes execute count poisoned b rows ⟨b.pending.drop count, true⟩ after false
  | panics : (poisoned = false → (b.pending.take count).foldlM execute rows = none) →
      Flushes execute count poisoned b rows ⟨b.pending, false⟩ rows true

theorem flushes_of_flush (flushed : b.flush execute count poisoned rows = some (b', rows', poisoned')) :
    Flushes execute count poisoned b rows b' rows' poisoned' := by
  unfold flush at flushed
  split at flushed
  · split at flushed
    · next held =>
      cases flushed
      exact .panics fun healthy => absurd held (by simp [healthy])
    · next free =>
      have healthy : poisoned = false := Bool.eq_false_of_not_eq_true free
      split at flushed
      · next after result =>
        cases flushed
        exact .commits healthy result
      · next result =>
        cases flushed
        exact .panics fun _ => result
  · cases flushed

namespace Flushes

/-- A flush only takes requests away. -/
theorem fewer (flushes : Flushes execute count poisoned b rows b' rows' poisoned') :
    b'.pending.Sublist b.pending := by
  cases flushes with
  | commits => exact List.drop_sublist _ _
  | panics => exact List.Sublist.refl _

/-- Requests that cannot fail do not panic. -/
theorem runs (flushes : Flushes execute count poisoned b rows b' rows' poisoned')
    (healthy : poisoned = false) (total : ∀ r ∈ b.pending, ∀ rows, (execute rows r).isSome) :
    b'.running = true ∧ poisoned' = false := by
  have executed : ∀ requests : List ρ, requests ⊆ b.pending → ∀ rows, (requests.foldlM execute rows).isSome := by
    intro requests inside
    induction requests with
    | nil => exact fun _ => rfl
    | cons r requests ih =>
      intro rows
      obtain ⟨next, result⟩ := Option.isSome_iff_exists.mp (total r (inside List.mem_cons_self) rows)
      rw [List.foldlM_cons, result]
      exact ih (List.subset_of_cons_subset inside) next
  cases flushes with
  | commits => exact ⟨rfl, rfl⟩
  | panics stuck =>
    have done := executed (b.pending.take count) (List.take_subset _ _) rows
    rw [stuck healthy] at done
    cases done

/-- Rows under new keys are moved into the table, or stay where they are. -/
theorem insertKeyed [DecidableEq κ] {key : τ → κ} {row : ρ → τ}
    (distinct : ((rows ++ b.pending.map row).map key).Nodup)
    (flushes : Flushes (fun rows r => insertKeyed key rows (row r)) count poisoned b rows b' rows' poisoned') :
    rows' ++ b'.pending.map row = rows ++ b.pending.map row ∧
      (poisoned = false → b'.running = true ∧ poisoned' = false) := by
  have split : b.pending.map row = (b.pending.take count).map row ++ (b.pending.drop count).map row := by
    rw [← List.map_append, List.take_append_drop]
  have batch : ((rows ++ (b.pending.take count).map row).map key).Nodup := by
    rw [split, ← List.append_assoc, List.map_append] at distinct
    exact (List.nodup_append.mp distinct).1
  have whole := foldlM_insertKeyed batch
  cases flushes with
  | commits _ result =>
    cases whole.symm.trans result
    exact ⟨by rw [split, List.append_assoc], fun _ => ⟨rfl, rfl⟩⟩
  | panics stuck =>
    refine ⟨rfl, fun healthy => ?_⟩
    cases whole.symm.trans (stuck healthy)

/-- The batch of deletions removes rows, or it is rolled back. -/
theorem deleted {b b' : Batcher DeletePeerRequest} {count : Nat} {poisoned poisoned' : Bool}
    {rows rows' : List AddressPortNetwork}
    (flushes : Flushes deletePeerRows count poisoned b rows b' rows' poisoned') : rows'.Sublist rows := by
  cases flushes with
  | commits _ result => exact deletePeerRows_sublist result
  | panics => exact List.Sublist.refl _

/-- An update of `peers` keeps the primary keys. -/
theorem updated {ρ : Type} {execute : List AddressPortNetwork → ρ → Option (List AddressPortNetwork)}
    {b b' : Batcher ρ} {count : Nat} {poisoned poisoned' : Bool} {rows rows' : List AddressPortNetwork}
    (keeps : ∀ {rows r rows'}, execute rows r = some rows' → rows' = rows)
    (flushes : Flushes execute count poisoned b rows b' rows' poisoned') : rows' = rows := by
  cases flushes with
  | panics => rfl
  | commits _ result =>
    generalize b.pending.take count = requests at result
    induction requests generalizing rows with
    | nil =>
      cases result
      rfl
    | cons r requests ih =>
      rw [List.foldlM_cons] at result
      obtain ⟨next, first, rest⟩ := Option.bind_eq_some_iff.mp result
      rw [keeps first] at rest
      exact ih rest

end Flushes

end Batcher

theorem updatePeerFromVersion_keeps {rows rows' : List AddressPortNetwork} {r : UpdatePeerFromVersionRequest}
    (result : updatePeerFromVersion rows r = some rows') : rows' = rows := by
  unfold updatePeerFromVersion at result
  split at result
  · cases result
    rfl
  · cases result

theorem updatePeerFirstOnline_keeps {rows rows' : List AddressPortNetwork} {r : UpdatePeerFirstOnlineRequest}
    (result : updatePeerFirstOnline rows r = some rows') : rows' = rows := by
  cases result
  rfl

end Bitlens

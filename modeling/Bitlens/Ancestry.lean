import Bitlens.MainChain

namespace Bitlens
open Lib

namespace Chain

/-- The known headers from `hash` back to the one without a parent, newest first. -/
inductive Ancestry (c : Chain) : Hash → List BlockHeaderWithNumber → Prop
  | root {hash b} (stored : c.knownHeaders hash = some b) (keyed : b.header.hash = hash)
      (bottom : b.header.parent = emptyHash) (number : b.number = 0) : Ancestry c hash [b]
  | child {hash b older} (stored : c.knownHeaders hash = some b) (keyed : b.header.hash = hash)
      (above : b.header.parent ≠ emptyHash) (number : b.number = older.length)
      (rest : Ancestry c b.header.parent older) : Ancestry c hash (b :: older)

/-- The headers without a parent are those at height zero. -/
def Anchored (c : Chain) : Prop :=
  ∀ hash b, c.knownHeaders hash = some b → (b.number = 0 ↔ b.header.parent = emptyHash)

variable {c : Chain} {hash : Hash} {b : BlockHeaderWithNumber} {blocks older : List BlockHeaderWithNumber}

theorem WellFormed.exists_ancestry (wf : c.WellFormed) (anchored : c.Anchored)
    (stored : c.knownHeaders hash = some b) :
    ∃ blocks, c.Ancestry hash blocks ∧ blocks.length = b.number + 1 := by
  induction height : b.number generalizing hash b with
  | zero =>
    have bottom := (anchored hash b stored).mp height
    exact ⟨[b], .root stored (wf.keyed hash b stored) bottom height, rfl⟩
  | succ n ih =>
    have above : b.number ≠ 0 := by omega
    obtain ⟨q, atParent, step⟩ := wf.parents hash b stored above
    obtain ⟨older, rest, length⟩ := ih atParent (by omega)
    refine ⟨b :: older, .child stored (wf.keyed hash b stored) ?_ (by omega) rest, by simp [length]⟩
    exact fun bottom => above ((anchored hash b stored).mpr bottom)

namespace Ancestry

theorem stored (ancestry : c.Ancestry hash (b :: older)) : c.knownHeaders hash = some b := by
  cases ancestry with
  | root stored => exact stored
  | child stored => exact stored

theorem keyed (ancestry : c.Ancestry hash (b :: older)) : b.header.hash = hash := by
  cases ancestry with
  | root _ keyed => exact keyed
  | child _ keyed => exact keyed

theorem number (ancestry : c.Ancestry hash (b :: older)) : b.number = older.length := by
  cases ancestry with
  | root _ _ _ number => exact number
  | child _ _ _ number => exact number

theorem exists_cons (ancestry : c.Ancestry hash blocks) : ∃ b older, blocks = b :: older := by
  cases ancestry with
  | root => exact ⟨_, [], rfl⟩
  | child => exact ⟨_, _, rfl⟩

theorem heightOf (ancestry : c.Ancestry hash (b :: older)) : c.heightOf hash = older.length := by
  rw [heightOf_of_known ancestry.stored, ancestry.number]

/-- The part of an ancestry from one of its headers back. -/
theorem suffix {front : List BlockHeaderWithNumber} (ancestry : c.Ancestry hash (front ++ b :: older)) :
    c.Ancestry b.header.hash (b :: older) := by
  induction front generalizing hash with
  | nil =>
    rw [List.nil_append] at ancestry
    have whole := ancestry
    rwa [← ancestry.keyed] at whole
  | cons first front ih =>
    generalize whole : first :: front ++ b :: older = blocks at ancestry
    cases ancestry with
    | root => simp at whole
    | child _ _ _ _ rest =>
      obtain ⟨-, same⟩ := List.cons.inj whole
      rw [← same] at rest
      exact ih rest

theorem stored_of_mem (ancestry : c.Ancestry hash blocks) (member : b ∈ blocks) :
    c.knownHeaders b.header.hash = some b := by
  obtain ⟨front, older, split⟩ := List.append_of_mem member
  rw [split] at ancestry
  exact ancestry.suffix.stored

/-- The heights fall by one, so no header occurs twice. -/
theorem hashes_nodup (ancestry : c.Ancestry hash blocks) : (blocks.map (·.header.hash)).Nodup := by
  induction ancestry with
  | root => simp
  | @child hash b older stored keyed above number rest ih =>
    rw [List.map_cons, List.nodup_cons]
    refine ⟨fun again => ?_, ih⟩
    obtain ⟨other, member, same⟩ := List.mem_map.mp again
    obtain ⟨front, back, split⟩ := List.append_of_mem member
    have atOther := rest.stored_of_mem member
    rw [same, keyed, stored] at atOther
    rw [split] at rest
    have lower := rest.suffix.number
    rw [← Option.some.inj atOther, number, split, List.length_append, List.length_cons] at lower
    omega

end Ancestry

end Chain

end Bitlens

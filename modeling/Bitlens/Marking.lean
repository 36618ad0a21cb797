import Bitlens.MainChain

namespace Bitlens
open Lib

/-- In memory the block counts as downloaded. -/
def Chain.Fetched (c : Chain) (hash : Hash) : Prop :=
  ∃ b, c.knownHeaders hash = some b ∧ b.fetchedFull = true

namespace Chainman

/-- Two states whose headers differ in the download marks only. -/
structure Marks (w w' : Chainman) (marked : List Hash) : Prop where
  inserts : w'.inserts = w.inserts
  known : ∀ hash ∈ marked, w.chain.Known hash
  keeps : ∀ hash b, w.chain.knownHeaders hash = some b → ∃ b', w'.chain.knownHeaders hash = some b' ∧
    b'.header = b.header ∧ b'.number = b.number ∧ b'.totalWork = b.totalWork ∧
      (b'.fetchedFull = true ↔ b.fetchedFull = true ∨ hash ∈ marked)
  only : ∀ hash, w.chain.knownHeaders hash = none → w'.chain.knownHeaders hash = none

variable {w w' w'' : Chainman}

theorem Marks.nil : Marks w w [] :=
  ⟨rfl, by simp, fun _ b stored => ⟨b, stored, rfl, rfl, rfl, by simp⟩, fun _ unknown => unknown⟩

theorem Marks.known_iff {marked : List Hash} (marks : Marks w w' marked) {hash : Hash} :
    w'.chain.Known hash ↔ w.chain.Known hash := by
  cases before : w.chain.knownHeaders hash with
  | none => simp [Chain.Known, before, marks.only hash before]
  | some b =>
    obtain ⟨b', after, _⟩ := marks.keeps hash b before
    simp [Chain.Known, before, after]

/-- Each header after the marking is a header before it. -/
theorem Marks.of_known {marked : List Hash} (marks : Marks w w' marked) {hash : Hash} {b' : BlockHeaderWithNumber}
    (stored : w'.chain.knownHeaders hash = some b') : ∃ b, w.chain.knownHeaders hash = some b ∧
      b'.header = b.header ∧ b'.number = b.number ∧ b'.totalWork = b.totalWork ∧
        (b'.fetchedFull = true ↔ b.fetchedFull = true ∨ hash ∈ marked) := by
  cases before : w.chain.knownHeaders hash with
  | none => rw [marks.only hash before] at stored; cases stored
  | some b =>
    obtain ⟨b'', after, agree⟩ := marks.keeps hash b before
    rw [stored] at after
    cases after
    exact ⟨b, rfl, agree⟩

theorem Marks.trans {first second : List Hash} (one : Marks w w' first) (two : Marks w' w'' second) :
    Marks w w'' (first ++ second) := by
  refine ⟨two.inserts.trans one.inserts, ?_, ?_, fun hash unknown => two.only hash (one.only hash unknown)⟩
  · intro hash member
    rcases List.mem_append.mp member with early | late
    · exact one.known hash early
    · exact one.known_iff.mp (two.known hash late)
  · intro hash b stored
    obtain ⟨b', stored', header', number', work', fetched'⟩ := one.keeps hash b stored
    obtain ⟨b'', stored'', header'', number'', work'', fetched''⟩ := two.keeps hash b' stored'
    refine ⟨b'', stored'', header''.trans header', number''.trans number', work''.trans work', ?_⟩
    rw [fetched'', fetched', List.mem_append, or_assoc]

theorem marks_of_markOne {block : Hash} {coinbaseAscii : Bytes} (result : w.markOne block coinbaseAscii = some w') :
    Marks w w' [block] := by
  obtain ⟨h, stored, rfl⟩ := Option.map_eq_some_iff.mp result
  refine ⟨rfl, ?_, ?_, ?_⟩
  · intro hash member
    rw [List.mem_singleton.mp member]
    simp [Chain.Known, stored]
  · intro hash b before
    by_cases same : hash = block
    · subst same
      rw [stored] at before
      cases before
      exact ⟨_, mapInsert_self _ _ _, rfl, rfl, rfl, by simp⟩
    · refine ⟨b, ?_, rfl, rfl, rfl, by simp [same]⟩
      rw [← before]
      exact mapInsert_of_ne same
  · intro hash before
    have apart : hash ≠ block := by
      rintro rfl
      rw [stored] at before
      cases before
    rw [← before]
    exact mapInsert_of_ne apart

theorem marks_of_markAll {blocks : List (Hash × Bytes)} (result : w.markAll blocks = some w') :
    Marks w w' (blocks.map Prod.fst) := by
  induction blocks generalizing w with
  | nil => cases result; exact .nil
  | cons block blocks ih =>
    obtain ⟨middle, first, rest⟩ := Option.bind_eq_some_iff.mp result
    exact (marks_of_markOne first).trans (ih rest)

/-- `mark_as_downloaded` sets the flags of its blocks and nothing else in the
known headers. -/
theorem marks_of_markAsDownloaded {blocks : List (Hash × Bytes)} (result : w.markAsDownloaded blocks = .ok w') :
    Marks w w' (blocks.map Prod.fst) := by
  obtain ⟨marked, all, result⟩ := Outcome.bind_eq_ok.mp result
  obtain ⟨top, _, result⟩ := Outcome.bind_eq_ok.mp result
  obtain ⟨count, _, result⟩ := Outcome.bind_eq_ok.mp result
  have marks := marks_of_markAll (Outcome.unwrap_eq_ok.mp all)
  cases result
  exact ⟨marks.inserts, marks.known, marks.keeps, marks.only⟩

theorem Marks.fetched_iff {marked : List Hash} (marks : Marks w w' marked) {hash : Hash} :
    w'.chain.Fetched hash ↔ w.chain.Fetched hash ∨ hash ∈ marked := by
  constructor
  · rintro ⟨b', stored', flag⟩
    obtain ⟨b, stored, _, _, _, fetched⟩ := marks.of_known stored'
    exact (fetched.mp flag).imp (fun old => ⟨b, stored, old⟩) id
  · rintro (⟨b, stored, flag⟩ | member)
    · obtain ⟨b', stored', _, _, _, fetched⟩ := marks.keeps hash b stored
      exact ⟨b', stored', fetched.mpr (Or.inl flag)⟩
    · obtain ⟨b, stored⟩ := Option.isSome_iff_exists.mp (marks.known hash member)
      obtain ⟨b', stored', _, _, _, fetched⟩ := marks.keeps hash b stored
      exact ⟨b', stored', fetched.mpr (Or.inr member)⟩

theorem Marks.parentOf {marked : List Hash} (marks : Marks w w' marked) :
    w'.chain.parentOf = w.chain.parentOf := by
  funext hash
  unfold Chain.parentOf
  cases before : w.chain.knownHeaders hash with
  | none => rw [marks.only hash before]
  | some b =>
    obtain ⟨b', after, header, number, _⟩ := marks.keeps hash b before
    rw [after, Option.bind_some, Option.bind_some, header, number]

theorem Marks.wellFormed {marked : List Hash} (marks : Marks w w' marked) (wf : w.chain.WellFormed)
    (header : w'.chain.topHeader.header = w.chain.topHeader.header)
    (number : w'.chain.topHeader.number = w.chain.topHeader.number) : w'.chain.WellFormed := by
  refine ⟨fun hash b' stored => ?_, fun hash b' stored positive => ?_, ?_⟩
  · obtain ⟨b, before, same, _⟩ := marks.of_known stored
    rw [same]
    exact wf.keyed hash b before
  · obtain ⟨b, before, same, level, _⟩ := marks.of_known stored
    rw [level] at positive ⊢
    obtain ⟨q, above, step⟩ := wf.parents hash b before positive
    obtain ⟨q', after, _, kept, _⟩ := marks.keeps _ q above
    rw [same]
    exact ⟨q', after, by rw [step, kept]⟩
  · obtain ⟨b, atTop, same, level⟩ := wf.top
    obtain ⟨b', after, same', level', _⟩ := marks.keeps _ b atTop
    rw [Chain.Holds, header, number]
    exact ⟨b', after, same'.trans same, level'.trans level⟩

end Chainman

end Bitlens

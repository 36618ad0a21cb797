import Mathlib.Data.List.Nodup
import Mathlib.Data.List.Pairwise

namespace Bitlens.Lib

variable {α β : Type}

section Runs

variable (time : α → Nat) (width : Nat)

/-- The runs that a moving cutoff cuts from a list: an element before the cutoff closes the run
`run` and starts the next one, with the cutoff one `width` lower. The last run stays open. -/
def closedRuns : Nat → List α → List α → List (Nat × List α)
  | _, _, [] => []
  | cutoff, run, x :: xs =>
    if time x < cutoff then (cutoff, run) :: closedRuns (cutoff - width) [x] xs
    else closedRuns cutoff (run ++ [x]) xs

/-- The time lies in the `j`-th span of this width back from the one at `start`. -/
def InSpan (start j t : Nat) : Prop :=
  start ≤ t + width * j ∧ t + width * j < start + width

/-- Runs on consecutive spans from the `j`-th on. -/
def Spans (start : Nat) : Nat → List (List α) → Prop
  | _, [] => True
  | j, run :: runs => run ≠ [] ∧ (∀ x ∈ run, InSpan width start j (time x)) ∧ Spans start (j + 1) runs

/-- The runs with their cutoffs. -/
def dated : Nat → List (List α) → List (Nat × List α)
  | _, [] => []
  | cutoff, run :: runs => (cutoff, run) :: dated (cutoff - width) runs

/-- The list falls span by span: runs on consecutive spans, an element older than all of them, and
behind it only elements of the next span or of a later time than all of them. -/
def Falls (start : Nat) (xs : List α) : Prop :=
  (∀ x ∈ xs, start ≤ time x) ∨
    ∃ runs oldest back, xs = runs.flatten ++ oldest :: back ∧ runs ≠ [] ∧ Spans time width start 0 runs ∧
      time oldest + width * runs.length < start + width ∧
      ∀ x ∈ back, InSpan width start runs.length (time x) ∨ start + width ≤ time x

end Runs

variable {time : α → Nat} {width start cutoff j : Nat} {run xs ys : List α} {runs : List (List α)}

theorem closedRuns_append (late : ∀ x ∈ xs, cutoff ≤ time x) :
    closedRuns time width cutoff run (xs ++ ys) = closedRuns time width cutoff (run ++ xs) ys := by
  induction xs generalizing run with
  | nil => simp
  | cons x xs ih =>
    rw [List.cons_append, closedRuns, if_neg (Nat.not_lt.mpr (late x List.mem_cons_self)),
      ih fun y member => late y (List.mem_cons_of_mem _ member)]
    simp

theorem closedRuns_eq_nil (late : ∀ x ∈ xs, cutoff ≤ time x) : closedRuns time width cutoff run xs = [] := by
  have whole : closedRuns time width cutoff run (xs ++ []) = closedRuns time width cutoff (run ++ xs) [] :=
    closedRuns_append late
  rw [List.append_nil] at whole
  rw [whole, closedRuns]

theorem closedRuns_map (f : β → α) (run xs : List β) :
    closedRuns time width cutoff (run.map f) (xs.map f) =
      (closedRuns (fun x => time (f x)) width cutoff run xs).map fun closed => (closed.1, closed.2.map f) := by
  induction xs generalizing cutoff run with
  | nil => rfl
  | cons x xs ih =>
    rw [List.map_cons, closedRuns, closedRuns]
    split
    · rw [List.map_cons, ← ih]
      rfl
    · rw [← ih, List.map_append]
      rfl

theorem closedRuns_map_nil (time : α → Nat) (width cutoff : Nat) (f : β → α) (xs : List β) :
    closedRuns time width cutoff [] (xs.map f) =
      (closedRuns (fun x => time (f x)) width cutoff [] xs).map fun closed => (closed.1, closed.2.map f) :=
  closedRuns_map f [] xs

/-- No closed run is empty. -/
theorem closedRuns_ne_nil (some : run ≠ []) {closed : Nat × List α}
    (member : closed ∈ closedRuns time width cutoff run xs) : closed.2 ≠ [] := by
  induction xs generalizing cutoff run with
  | nil => cases member
  | cons x xs ih =>
    rw [closedRuns] at member
    split at member
    · rcases List.mem_cons.mp member with rfl | later
      · exact some
      · exact ih (List.cons_ne_nil _ _) later
    · exact ih (by simp) member

/-- A closed run is a part of the list, in its order. -/
theorem closedRuns_sublist {closed : Nat × List α} (member : closed ∈ closedRuns time width cutoff run xs) :
    closed.2.Sublist (run ++ xs) := by
  induction xs generalizing cutoff run with
  | nil => cases member
  | cons x xs ih =>
    rw [closedRuns] at member
    split at member
    · rcases List.mem_cons.mp member with rfl | later
      · exact List.sublist_append_left _ _
      · exact (ih later).trans (List.sublist_append_right _ _)
    · simpa using ih member

/-- The next cutoff, one span further back. -/
theorem lower_cutoff {t : Nat} (aligned : width ∣ cutoff) (level : cutoff + width * j = start) (early : t < cutoff) :
    width ∣ cutoff - width ∧ cutoff - width + width * (j + 1) = start ∧ width ≤ cutoff := by
  obtain ⟨n, rfl⟩ := aligned
  have positive : n ≠ 0 := by
    rintro rfl
    omega
  obtain ⟨n, rfl⟩ := Nat.exists_eq_succ_of_ne_zero positive
  rw [Nat.mul_succ, Nat.add_sub_cancel]
  refine ⟨Nat.dvd_mul_right _ _, ?_, Nat.le_add_left _ _⟩
  rw [← level, Nat.mul_succ, Nat.mul_succ]
  omega

/-- The cutoffs fall, so no two closed runs have the same one. -/
theorem closedRuns_cutoff_le (aligned : width ∣ cutoff) {closed : Nat × List α}
    (member : closed ∈ closedRuns time width cutoff run xs) : closed.1 ≤ cutoff := by
  induction xs generalizing cutoff run with
  | nil => cases member
  | cons x xs ih =>
    rw [closedRuns] at member
    split at member
    · next early =>
      rcases List.mem_cons.mp member with rfl | later
      · exact Nat.le_refl _
      · exact Nat.le_trans (ih (lower_cutoff (j := 0) aligned rfl early).1 later) (Nat.sub_le _ _)
    · exact ih aligned member

theorem closedRuns_cutoffs_nodup (positive : 0 < width) (aligned : width ∣ cutoff) :
    ((closedRuns time width cutoff run xs).map (·.1)).Nodup := by
  induction xs generalizing cutoff run with
  | nil => exact .nil
  | cons x xs ih =>
    rw [closedRuns]
    split
    · next early =>
      obtain ⟨next, _, room⟩ := lower_cutoff (j := 0) aligned rfl early
      refine List.nodup_cons.mpr ⟨fun again => ?_, ih next⟩
      obtain ⟨closed, member, same⟩ := List.mem_map.mp again
      have below := closedRuns_cutoff_le next member
      rw [same] at below
      dsimp only at below
      omega
    · exact ih aligned

theorem inSpan_iff {t : Nat} (level : cutoff + width * j = start) :
    InSpan width start j t ↔ cutoff ≤ t ∧ t < cutoff + width := by
  unfold InSpan
  omega

/-- A list that falls span by span is cut into its spans. -/
theorem closedRuns_of_spans {oldest : α} {back : List α} (aligned : width ∣ cutoff)
    (level : cutoff + width * j = start) (spans : Spans time width start (j + 1) runs)
    (early : time oldest + width * (j + 1 + runs.length) < start + width)
    (behind : ∀ x ∈ back, InSpan width start (j + 1 + runs.length) (time x) ∨ start + width ≤ time x) :
    closedRuns time width cutoff run (runs.flatten ++ oldest :: back) = dated width cutoff (run :: runs) := by
  induction runs generalizing cutoff j run with
  | nil =>
    rw [List.length_nil, Nat.add_zero] at early behind
    rw [Nat.mul_succ] at early
    have closes : time oldest < cutoff := by omega
    obtain ⟨_, next, _⟩ := lower_cutoff aligned level closes
    have late : ∀ x ∈ back, cutoff - width ≤ time x := by
      intro x member
      rcases behind x member with inside | later
      · exact ((inSpan_iff next).mp inside).1
      · omega
    rw [List.flatten_nil, List.nil_append, closedRuns, if_pos closes, closedRuns_eq_nil late]
    rfl
  | cons next runs ih =>
    obtain ⟨some, inside, spans⟩ := spans
    cases next with
    | nil => exact absurd rfl some
    | cons x rest =>
      have closes : time x < cutoff := by
        have atX := (inside x List.mem_cons_self).2
        rw [Nat.mul_succ] at atX
        omega
      obtain ⟨aligned, level, _⟩ := lower_cutoff aligned level closes
      have late : ∀ y ∈ rest, cutoff - width ≤ time y := fun y member =>
        ((inSpan_iff level).mp (inside y (List.mem_cons_of_mem _ member))).1
      have counted : j + 1 + (List.length runs + 1) = j + 1 + 1 + runs.length := by omega
      rw [List.length_cons, counted] at early behind
      rw [List.flatten_cons, List.cons_append, List.cons_append, closedRuns, if_pos closes, List.append_assoc,
        closedRuns_append late, List.singleton_append, ih aligned level spans early behind]
      rfl

/-- What a list is cut into: nothing where no element is before the cutoff, else runs with an
element before the last cutoff behind them. -/
theorem closedRuns_spec (aligned : width ∣ cutoff) (level : cutoff + width * j = start) (some : run ≠ []) :
    (closedRuns time width cutoff run xs = [] ∧ ∀ x ∈ xs, cutoff ≤ time x) ∨
      ∃ first runs oldest back, closedRuns time width cutoff run xs = dated width cutoff (first :: runs) ∧
        run ++ xs = (first :: runs).flatten ++ oldest :: back ∧ first ≠ [] ∧ (∀ r ∈ runs, r ≠ []) ∧
        time oldest + width * (j + 1 + runs.length) < start + width ∧
        ∀ x ∈ back, start ≤ time x + width * (j + 1 + runs.length) := by
  induction xs generalizing cutoff j run with
  | nil => exact Or.inl ⟨rfl, by simp⟩
  | cons x xs ih =>
    rw [closedRuns]
    by_cases early : time x < cutoff
    · rw [if_pos early]
      right
      have closes : time x + width * (j + 1) < start + width := by
        rw [Nat.mul_succ]
        omega
      obtain ⟨aligned, level, _⟩ := lower_cutoff aligned level early
      rcases ih aligned level (List.cons_ne_nil x []) with ⟨none, late⟩ |
        ⟨first, runs, oldest, back, same, split, head, others, last, behind⟩
      · refine ⟨run, [], x, xs, by rw [none]; rfl, by simp, some, by simp, closes, fun y member => ?_⟩
        have above := late y member
        rw [List.length_nil, Nat.add_zero]
        omega
      · have counted : j + 1 + (first :: runs).length = j + 1 + 1 + runs.length := by
          rw [List.length_cons]
          omega
        refine ⟨run, first :: runs, oldest, back, by rw [same]; rfl, ?_, some, ?_, by rwa [counted], by rwa [counted]⟩
        · rw [List.flatten_cons, List.append_assoc, ← split]
          rfl
        · exact List.forall_mem_cons.mpr ⟨head, others⟩
    · rw [if_neg early]
      have someMore : run ++ [x] ≠ [] := by simp
      rcases ih aligned level someMore with ⟨none, late⟩ | found
      · exact Or.inl ⟨none, List.forall_mem_cons.mpr ⟨Nat.le_of_not_lt early, late⟩⟩
      · right
        simpa using found

/-- Every closed run holds exactly the elements of its span. -/
def Exact (time : α → Nat) (width : Nat) (xs : List α) (closed : List (Nat × List α)) : Prop :=
  ∀ run ∈ closed, ∀ x ∈ xs, x ∈ run.2 ↔ run.1 ≤ time x ∧ time x < run.1 + width

/-- The spans of runs, each with its cutoff, as long as the cutoffs do not run out. -/
theorem spans_of_dated (level : cutoff + width * j = start) (room : width * runs.length ≤ cutoff + width)
    (some : ∀ r ∈ runs, r ≠ [])
    (inside : ∀ run ∈ dated width cutoff runs, ∀ x ∈ run.2, run.1 ≤ time x ∧ time x < run.1 + width) :
    Spans time width start j runs := by
  induction runs generalizing cutoff j with
  | nil => trivial
  | cons run runs ih =>
    rw [dated] at inside
    refine ⟨some run List.mem_cons_self, fun x member =>
      (inSpan_iff level).mpr (inside _ List.mem_cons_self x member), ?_⟩
    cases runs with
    | nil => trivial
    | cons next runs =>
      rw [List.length_cons, List.length_cons, Nat.mul_succ, Nat.mul_succ] at room
      have level : cutoff - width + width * (j + 1) = start := by
        rw [Nat.mul_succ]
        omega
      refine ih level ?_ (fun r member => some r (List.mem_cons_of_mem _ member))
        fun run member => inside run (List.mem_cons_of_mem _ member)
      rw [List.length_cons, Nat.mul_succ]
      omega

/-- A time between the last cutoff and the end of the first span lies in one of the spans. -/
theorem exists_dated {t : Nat} (some : runs ≠ []) (room : width * runs.length ≤ cutoff + width)
    (before : t < cutoff + width) (behind : cutoff + width ≤ t + width * runs.length) :
    ∃ run ∈ dated width cutoff runs, run.1 ≤ t ∧ t < run.1 + width := by
  induction runs generalizing cutoff with
  | nil => exact absurd rfl some
  | cons run runs ih =>
    by_cases here : cutoff ≤ t
    · exact ⟨_, List.mem_cons_self, here, before⟩
    · cases runs with
      | nil =>
        rw [List.length_singleton, Nat.mul_one] at behind
        omega
      | cons next runs =>
        rw [List.length_cons, Nat.mul_succ] at room behind
        rw [List.length_cons, Nat.mul_succ] at room behind
        have before : t < cutoff - width + width := by omega
        obtain ⟨found, member, inside⟩ := ih (List.cons_ne_nil _ _)
          (by rw [List.length_cons, Nat.mul_succ]; omega) before (by rw [List.length_cons, Nat.mul_succ]; omega)
        exact ⟨found, List.mem_cons_of_mem _ member, inside⟩

theorem dated_subset {closed : Nat × List α} (member : closed ∈ dated width cutoff runs) :
    closed.2 ⊆ runs.flatten := by
  induction runs generalizing cutoff with
  | nil => cases member
  | cons run runs ih =>
    rw [List.flatten_cons]
    rcases List.mem_cons.mp member with rfl | later
    · exact List.subset_append_left _ _
    · exact List.Subset.trans (ih later) (List.subset_append_right _ _)

theorem Spans.before {x : α} (spans : Spans time width start j runs) (member : x ∈ runs.flatten) :
    time x + width * j < start + width := by
  induction runs generalizing j with
  | nil => cases member
  | cons run runs ih =>
    obtain ⟨_, inside, spans⟩ := spans
    rcases List.mem_append.mp (List.flatten_cons ▸ member) with here | later
    · exact (inside x here).2
    · have earlier := ih spans later
      rw [Nat.mul_succ] at earlier
      omega

/-- A run among others on consecutive spans holds exactly the elements of its span. -/
theorem Spans.exact (spans : Spans time width start j runs) (level : cutoff + width * j = start)
    (room : width * runs.length ≤ cutoff + width) {closed : Nat × List α} (member : closed ∈ dated width cutoff runs) :
    (∀ x ∈ runs.flatten, x ∈ closed.2 ↔ closed.1 ≤ time x ∧ time x < closed.1 + width) ∧
      closed.2 ⊆ runs.flatten ∧ closed.1 ≤ cutoff ∧ cutoff + width ≤ closed.1 + width * runs.length := by
  induction runs generalizing cutoff j with
  | nil => cases member
  | cons run runs ih =>
    obtain ⟨_, inside, spans⟩ := spans
    rw [List.length_cons, Nat.mul_succ] at room ⊢
    rw [List.flatten_cons]
    rcases List.mem_cons.mp member with rfl | later
    · refine ⟨fun x member => ⟨fun here => (inSpan_iff level).mp (inside x here), fun atSpan => ?_⟩,
        List.subset_append_left _ _, Nat.le_refl _, by omega⟩
      rcases List.mem_append.mp member with here | behind
      · exact here
      · have earlier := spans.before behind
        rw [Nat.mul_succ] at earlier
        omega
    · cases runs with
      | nil => cases later
      | cons next runs =>
        rw [List.length_cons, Nat.mul_succ] at room
        have lower : cutoff - width + width * (j + 1) = start := by
          rw [Nat.mul_succ]
          omega
        obtain ⟨exact, within, below, above⟩ := ih spans lower
          (by rw [List.length_cons, Nat.mul_succ]; omega) later
        refine ⟨fun x member => ?_, List.Subset.trans within (List.subset_append_right _ _), by omega, by omega⟩
        rcases List.mem_append.mp member with here | behind
        · have late := ((inSpan_iff level).mp (inside x here)).1
          constructor
          · exact fun inside => (exact x (within inside)).mp inside
          · intro atSpan
            omega
        · exact exact x behind

/-- For a list without repetition whose first element is not before the cutoff, every closed run
holds exactly the elements of its span if and only if the list falls span by span. -/
theorem exact_closedRuns_iff {x : α} (distinct : (x :: xs).Nodup) (aligned : width ∣ start) (first : start ≤ time x) :
    Exact time width (x :: xs) (closedRuns time width start [] (x :: xs)) ↔ Falls time width start (x :: xs) := by
  have level : start + width * 0 = start := rfl
  have begins : closedRuns time width start [] (x :: xs) = closedRuns time width start [x] xs := by
    rw [closedRuns, if_neg (Nat.not_lt.mpr first)]
    rfl
  constructor
  · intro exact
    rw [begins] at exact
    have spec : (closedRuns time width start [x] xs = [] ∧ _) ∨ _ :=
      closedRuns_spec aligned level (List.cons_ne_nil x [])
    rcases spec with ⟨_, late⟩ | ⟨run, runs, oldest, back, same, split, head, others, last, behind⟩
    · exact Or.inl (List.forall_mem_cons.mpr ⟨first, late⟩)
    · right
      rw [same] at exact
      rw [List.singleton_append] at split
      have counted : 0 + 1 + runs.length = (run :: runs).length := by rw [List.length_cons]; omega
      rw [counted] at last behind
      have room : width * (run :: runs).length ≤ start + width := by omega
      have some : ∀ r ∈ run :: runs, r ≠ [] := List.forall_mem_cons.mpr ⟨head, others⟩
      refine ⟨run :: runs, oldest, back, split, List.cons_ne_nil _ _, spans_of_dated level room some ?_, last, ?_⟩
      · intro closed member y inside
        refine (exact closed member y ?_).mp inside
        rw [split]
        exact List.mem_append_left _ (dated_subset member inside)
      · intro y member
        by_contra neither
        rw [not_or, InSpan] at neither
        have late := behind y member
        obtain ⟨closed, atClosed, inside⟩ := exists_dated (t := time y) (List.cons_ne_nil run runs) room
          (by omega) (by omega)
        -- An element behind the runs but in one of their spans would stand in the list twice.
        have again : y ∈ (run :: runs).flatten := by
          refine dated_subset atClosed ((exact closed atClosed y ?_).mpr inside)
          rw [split]
          exact List.mem_append_right _ (List.mem_cons_of_mem _ member)
        rw [split] at distinct
        exact List.disjoint_of_nodup_append distinct again (List.mem_cons_of_mem _ member)
  · rintro (late | ⟨runs, oldest, back, split, some, spans, last, behind⟩)
    · rw [closedRuns_eq_nil late]
      exact fun _ member => by cases member
    · cases runs with
      | nil => exact absurd rfl some
      | cons run runs =>
        have counted : (run :: runs).length = 0 + 1 + runs.length := by rw [List.length_cons]; omega
        have room : width * (run :: runs).length ≤ start + width := by omega
        have late : ∀ y ∈ run, start ≤ time y := fun y member => ((inSpan_iff level).mp (spans.2.1 y member)).1
        have cut : closedRuns time width start [] (x :: xs) = dated width start (run :: runs) := by
          rw [split, List.flatten_cons, List.append_assoc, closedRuns_append late, List.nil_append]
          exact closedRuns_of_spans aligned level spans.2.2 (counted ▸ last) (counted ▸ behind)
        intro closed member y inList
        rw [cut] at member
        obtain ⟨exact, within, below, above⟩ := spans.exact level room member
        rw [split] at inList
        rcases List.mem_append.mp inList with inRuns | outside
        · exact exact y inRuns
        · rw [split] at distinct
          have elsewhere : y ∉ closed.2 := fun inside =>
            List.disjoint_of_nodup_append distinct (within inside) outside
          refine iff_of_false elsewhere ?_
          rcases List.mem_cons.mp outside with rfl | inBack
          · omega
          · rcases behind y inBack with next | later
            · unfold InSpan at next
              omega
            · omega

end Bitlens.Lib

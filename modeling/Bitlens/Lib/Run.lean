import Mathlib.Data.List.Induction

namespace Bitlens.Lib

variable {σ ℓ : Type}

/-- The runs of a labelled step relation: the state after each list of labels.
The last step stands outermost, so an induction over a run adds one step. -/
inductive Run (step : σ → ℓ → σ → Prop) (start : σ) : List ℓ → σ → Prop
  | nil : Run step start [] start
  | snoc {labels label s t} : Run step start labels s → step s label t →
      Run step start (labels ++ [label]) t

/-- The steps that meet a condition on the state before the step and its label. -/
def Guarded (good : σ → ℓ → Prop) (step : σ → ℓ → σ → Prop) (s : σ) (l : ℓ) (t : σ) : Prop :=
  good s l ∧ step s l t

variable {step : σ → ℓ → σ → Prop} {start s t : σ} {labels : List ℓ} {label : ℓ}

theorem Run.single (run : step s label t) : Run step s [label] t :=
  .snoc .nil run

theorem Run.cons {u : σ} {labels : List ℓ} (first : step s label t) (rest : Run step t labels u) :
    Run step s (label :: labels) u := by
  induction rest with
  | nil => exact .single first
  | snoc _ last ih => exact .snoc ih last

theorem Run.append {u : σ} {front back : List ℓ} (first : Run step s front t) (rest : Run step t back u) :
    Run step s (front ++ back) u := by
  induction rest with
  | nil => simpa using first
  | snoc _ last ih => simpa only [← List.append_assoc] using Run.snoc ih last

theorem run_nil_iff : Run step start [] t ↔ t = start := by
  constructor
  · intro run
    generalize empty : ([] : List ℓ) = labels at run
    cases run with
    | nil => rfl
    | snoc _ _ => exact absurd empty.symm (List.append_ne_nil_of_right_ne_nil _ (List.cons_ne_nil _ _))
  · intro same
    rw [same]
    exact .nil

theorem run_snoc_iff : Run step start (labels ++ [label]) t ↔ ∃ s, Run step start labels s ∧ step s label t := by
  constructor
  · intro run
    generalize whole : labels ++ [label] = all at run
    cases run with
    | nil => exact absurd whole (List.append_ne_nil_of_right_ne_nil _ (List.cons_ne_nil _ _))
    | snoc previous last =>
      obtain ⟨front, back⟩ := List.append_inj' whole rfl
      cases front
      cases back
      exact ⟨_, previous, last⟩
  · intro ⟨s, previous, last⟩
    exact .snoc previous last

theorem run_cons_iff : Run step start (label :: labels) t ↔ ∃ s, step start label s ∧ Run step s labels t := by
  constructor
  · intro run
    induction labels using List.reverseRecOn generalizing t with
    | nil =>
      obtain ⟨s, previous, last⟩ := run_snoc_iff.mp (show Run step start ([] ++ [label]) t from run)
      rw [run_nil_iff] at previous
      exact ⟨t, previous ▸ last, .nil⟩
    | append_singleton labels other ih =>
      rw [← List.cons_append] at run
      obtain ⟨u, previous, last⟩ := run_snoc_iff.mp run
      obtain ⟨s, first, rest⟩ := ih previous
      exact ⟨s, first, rest.snoc last⟩
  · rintro ⟨s, first, rest⟩
    exact Run.cons first rest

/-- Invariant rule: what holds at the start and is kept by each step holds in
every state a run reaches. -/
theorem Run.invariant {P : σ → Prop} (run : Run step start labels s) (base : P start)
    (keep : ∀ s label t, P s → step s label t → P t) : P s := by
  induction run with
  | nil => exact base
  | snoc _ last ih => exact keep _ _ _ ih last

/-- Invariant rule for what relates a state to the labels that led to it. -/
theorem Run.history {P : List ℓ → σ → Prop} (run : Run step start labels s) (base : P [] start)
    (keep : ∀ labels s label t, P labels s → step s label t → P (labels ++ [label]) t) : P labels s := by
  induction run with
  | nil => exact base
  | snoc _ last ih => exact keep _ _ _ _ ih last

/-- What holds in every reached state may be asked of the state before each step. -/
theorem Run.with_invariant {P : σ → Prop} (run : Run step start labels s)
    (known : ∀ {labels s}, Run step start labels s → P s) : Run (fun s label t => P s ∧ step s label t) start labels s := by
  induction run with
  | nil => exact .nil
  | snoc previous last ih => exact .snoc ih ⟨known previous, last⟩

theorem Run.mono {other : σ → ℓ → σ → Prop} (weaker : ∀ s label t, step s label t → other s label t)
    (run : Run step start labels s) : Run other start labels s := by
  induction run with
  | nil => exact .nil
  | snoc _ last ih => exact .snoc ih (weaker _ _ _ last)

/-- Each step of a run takes one of its labels. -/
theorem Run.with_labels (run : Run step start labels s) :
    Run (fun s label t => label ∈ labels ∧ step s label t) start labels s := by
  suffices each : ∀ all, (∀ label ∈ labels, label ∈ all) →
      Run (fun s label t => label ∈ all ∧ step s label t) start labels s from each labels fun _ member => member
  induction run with
  | nil => exact fun _ _ => .nil
  | snoc _ last ih =>
    intro all inside
    refine .snoc (ih all fun label member => inside label (List.mem_append_left _ member)) ⟨inside _ ?_, last⟩
    exact List.mem_append_right _ List.mem_cons_self

theorem Run.unguarded {good : σ → ℓ → Prop} (run : Run (Guarded good step) start labels s) :
    Run step start labels s :=
  run.mono fun _ _ _ guarded => guarded.2

theorem Run.guarded_of_labels {good : σ → ℓ → Prop} (run : Run step start labels s)
    (meets : ∀ label ∈ labels, ∀ s, good s label) : Run (Guarded good step) start labels s := by
  induction run with
  | nil => exact .nil
  | @snoc labels label s t _ last ih =>
    have before := ih fun other member => meets other (List.mem_append_left _ member)
    exact before.snoc ⟨meets label (List.mem_append_right _ List.mem_cons_self) s, last⟩

/-- Either every step meets the condition, or a step that does not has spoiled
the state for good. -/
theorem Run.guarded_or {good : σ → ℓ → Prop} {spoiled : σ → Prop} (run : Run step start labels s)
    (spoils : ∀ s label t, step s label t → ¬ good s label → spoiled t)
    (stays : ∀ s label t, step s label t → spoiled s → spoiled t) :
    Run (Guarded good step) start labels s ∨ spoiled s := by
  induction run with
  | nil => exact Or.inl .nil
  | @snoc _ label s t _ last ih =>
    rcases ih with guarded | bad
    · by_cases meets : good s label
      · exact Or.inl (.snoc guarded ⟨meets, last⟩)
      · exact Or.inr (spoils _ _ _ last meets)
    · exact Or.inr (stays _ _ _ last bad)

/-- For a step function a run is its fold, so concrete runs can be evaluated. -/
def runFn (next : σ → ℓ → Option σ) (start : σ) : List ℓ → Option σ
  | [] => some start
  | label :: labels => (next start label).bind fun s => runFn next s labels

theorem Run.of_runFn {next : σ → ℓ → Option σ} (agree : ∀ s label t, next s label = some t → step s label t)
    (result : runFn next start labels = some s) : Run step start labels s := by
  induction labels generalizing start with
  | nil => cases Option.some.inj result; exact .nil
  | cons label labels ih =>
    obtain ⟨middle, first, rest⟩ := Option.bind_eq_some_iff.mp result
    exact .cons (agree _ _ _ first) (ih rest)

/-- The state after some labels whose steps can all be taken. -/
def after (next : σ → ℓ → Option σ) (start : σ) (labels : List ℓ) : σ :=
  (runFn next start labels).getD start

theorem Run.of_after {next : σ → ℓ → Option σ} (agree : ∀ s label t, next s label = some t → step s label t)
    (possible : (runFn next start labels).isSome) : Run step start labels (after next start labels) := by
  obtain ⟨s, result⟩ := Option.isSome_iff_exists.mp possible
  rw [after, result, Option.getD_some]
  exact of_runFn agree result

theorem runFn_append {next : σ → ℓ → Option σ} {front back : List ℓ} :
    runFn next start (front ++ back) = (runFn next start front).bind fun s => runFn next s back := by
  induction front generalizing start with
  | nil => rfl
  | cons label front ih =>
    rw [List.cons_append, runFn, runFn, Option.bind_assoc]
    exact congrArg _ (funext fun _ => ih)

/-- One more step of a run that is evaluated. -/
theorem Run.guarded_snoc {good : σ → ℓ → Prop} {next : σ → ℓ → Option σ}
    (agree : ∀ s label t, next s label = some t → step s label t)
    (run : Run (Guarded good step) start labels (after next start labels)) (label : ℓ) (meets : good (after next start labels) label)
    (possible : (runFn next start (labels ++ [label])).isSome) :
    Run (Guarded good step) start (labels ++ [label]) (after next start (labels ++ [label])) := by
  obtain ⟨t, result⟩ := Option.isSome_iff_exists.mp possible
  have whole := result
  rw [runFn_append] at result
  obtain ⟨s, first, last⟩ := Option.bind_eq_some_iff.mp result
  obtain ⟨u, taken, same⟩ := Option.bind_eq_some_iff.mp last
  cases same
  have before : after next start labels = s := by rw [after, first, Option.getD_some]
  rw [before] at run meets
  rw [after, whole, Option.getD_some]
  exact run.snoc ⟨meets, agree _ _ _ taken⟩

/-- The step function restricted to the steps that meet a condition. -/
def guardedFn (good : σ → ℓ → Prop) [∀ s label, Decidable (good s label)] (next : σ → ℓ → Option σ) (s : σ)
    (label : ℓ) : Option σ :=
  if good s label then next s label else none

theorem runFn_of_guardedFn {good : σ → ℓ → Prop} [∀ s label, Decidable (good s label)] {next : σ → ℓ → Option σ}
    (result : runFn (guardedFn good next) start labels = some s) : runFn next start labels = some s := by
  induction labels generalizing start with
  | nil => exact result
  | cons label labels ih =>
    obtain ⟨middle, first, rest⟩ := Option.bind_eq_some_iff.mp result
    rw [guardedFn] at first
    split at first
    · rw [runFn, first, Option.bind_some]
      exact ih rest
    · cases first

theorem Run.of_guarded_after {good : σ → ℓ → Prop} [∀ s label, Decidable (good s label)] {next : σ → ℓ → Option σ}
    (agree : ∀ s label t, next s label = some t → step s label t)
    (possible : (runFn (guardedFn good next) start labels).isSome) :
    Run (Guarded good step) start labels (after next start labels) := by
  obtain ⟨s, result⟩ := Option.isSome_iff_exists.mp possible
  rw [after, runFn_of_guardedFn result, Option.getD_some]
  refine of_runFn (fun s label t taken => ?_) result
  rw [guardedFn] at taken
  split at taken
  · next meets => exact ⟨meets, agree _ _ _ taken⟩
  · cases taken

/-- One evaluation of a run that is possible gives the run and what its last state meets. -/
theorem Run.of_guarded_any {good : σ → ℓ → Prop} [∀ s label, Decidable (good s label)] {next : σ → ℓ → Option σ}
    (meets : σ → Prop) [DecidablePred meets] (agree : ∀ s label t, next s label = some t → step s label t)
    (possible : (runFn (guardedFn good next) start labels).any fun s => meets s) :
    Run (Guarded good step) start labels (after next start labels) ∧ meets (after next start labels) := by
  obtain ⟨s, result, ends⟩ := (Option.any_eq_true _ _).mp possible
  refine ⟨.of_guarded_after agree (by rw [result]; rfl), ?_⟩
  rw [after, runFn_of_guardedFn result, Option.getD_some]
  exact of_decide_eq_true ends

end Bitlens.Lib

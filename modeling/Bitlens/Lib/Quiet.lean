import Bitlens.Lib.Decode

namespace Bitlens.Lib

/-- The decoder asks for no memory and for no string. -/
def Quiet {α : Type} (s : Survey α) : Prop :=
  s.demands = []

namespace Quiet

variable {α β : Type} {s : Survey α}

theorem pure (a : α) : Quiet (Pure.pure a) :=
  rfl

theorem bail : Quiet (Decoding.bail : Survey α) :=
  rfl

theorem bind {f : α → Survey β} (first : Quiet s) (next : ∀ a, Quiet (f a)) : Quiet (s >>= f) := by
  obtain ⟨demands, result⟩ := s
  cases result with
  | none => exact first
  | some a =>
    change demands ++ (f a).demands = []
    rw [show demands = [] from first, show (f a).demands = [] from next a]
    rfl

theorem orBail (x : Option α) : Quiet (Lib.orBail x) := by
  cases x with
  | none => exact bail
  | some a => exact pure a

theorem ensure (condition : Prop) [Decidable condition] : Quiet (Lib.ensure condition) := by
  unfold Lib.ensure
  split
  · exact pure ()
  · exact bail

theorem ite {condition : Prop} [Decidable condition] {t : Survey α} (yes : Quiet s) (no : Quiet t) :
    Quiet (if condition then s else t) := by
  split
  · exact yes
  · exact no

theorem add (a b : Nat) : Quiet (Decoding.add a b) :=
  rfl

theorem unwrap (x : Option α) : Quiet (Decoding.unwrap x) :=
  rfl

end Quiet

variable {α β : Type}

/-- What stands behind a quiet decoder asks for all there is. -/
theorem demands_bind {s : Survey α} {f : α → Survey β} {a : α} (quiet : Quiet s) (result : s.result = some a) :
    (s >>= f).demands = (f a).demands := by
  obtain ⟨demands, found⟩ := s
  cases result
  change demands ++ (f a).demands = _
  rw [show demands = [] from quiet]
  rfl

theorem demands_bind_quiet {s : Survey α} {f : α → Survey β} (next : ∀ a, Quiet (f a)) :
    (s >>= f).demands = s.demands := by
  obtain ⟨demands, found⟩ := s
  cases found with
  | none => rfl
  | some a =>
    change demands ++ (f a).demands = demands
    rw [show (f a).demands = [] from next a, List.append_nil]

/-- A quiet survey finds what the decoder on the heap returns. -/
theorem result_of_quiet {post : α → Prop} {p : Parser α} {s : Survey α} {o : Outcome α} {a : α}
    (agrees : Agrees post p s) (follows : Follows p o) (quiet : Quiet s) (returns : o = .ok a) : s.result = some a := by
  have arena : Arena := ⟨0, 0, by decide⟩
  have fits : arena.Fits 0 s.demands := by
    rw [show s.demands = [] from quiet]
    trivial
  obtain ⟨used, parsed⟩ := follows arena 0 a returns fun fault => agrees.fault_iff.mp fault fits
  rw [agrees.fits arena 0 fits] at parsed
  cases found : s.result with
  | none =>
    rw [found] at parsed
    cases parsed
  | some b =>
    rw [found] at parsed
    cases parsed
    rfl

end Bitlens.Lib

import Bitlens.Lib.Bytes
import Bitlens.Lib.Outcome

namespace Bitlens.Lib

/-- Size and alignment of a type in memory. -/
structure Layout where
  size : Nat
  align : Nat

/-- What a decoder of length-prefixed data does besides computing: it gives up, or
it relies on a value being present, on a sum to fit a machine word, or on memory.
`addLength` is the same as `add`, for a length that the data declares. -/
class Decoding (m : Type → Type) extends Monad m where
  bail {α : Type} : m α
  unwrap {α : Type} : Option α → m α
  add : Nat → Nat → m Nat
  addLength : Nat → Nat → m Nat
  tryAlloc : Layout → m Unit
  tryAllocArray : Layout → Nat → m Unit

export Decoding (bail add addLength tryAlloc tryAllocArray)

section Derived

variable {m : Type → Type} [Decoding m] {α : Type}

def orBail : Option α → m α
  | some a => pure a
  | none => bail

def ensure (condition : Prop) [Decidable condition] : m Unit :=
  if condition then pure () else bail

end Derived

/-- A block of memory that is handed out from its start. -/
structure Arena where
  data : Nat
  capacity : Nat
  inBounds : data + capacity < 2 ^ 64

namespace Arena

def padding (arena : Arena) (alignment consumed : Nat) : Nat :=
  (alignment - (arena.data + consumed) % alignment) % alignment

/-- The memory consumed after `size` more bytes; a block that does not fit is a panic. -/
def reserve (arena : Arena) (alignment size consumed : Nat) : Outcome Nat := do
  let start ← Profile.dev.add 64 consumed (arena.padding alignment consumed)
  let stop ← Profile.dev.add 64 start size
  if stop ≤ arena.capacity then pure stop else .fault

def reserveArray (arena : Arena) (layout : Layout) (count consumed : Nat) : Outcome Nat := do
  let size ← Profile.dev.mul 64 layout.size count
  arena.reserve layout.align size consumed

/-- Takes arrays, each given by the layout of an element and a count, one behind the other. -/
def reserveArrays (arena : Arena) : List (Layout × Nat) → Nat → Outcome Nat
  | [], consumed => .ok consumed
  | (layout, count) :: rest, consumed => do
    let consumed ← arena.reserveArray layout count consumed
    arena.reserveArrays rest consumed

end Arena

/-- A decoder with its arena, the memory consumed so far and checked arithmetic. -/
def Parser (α : Type) := Arena → Nat → Outcome (α × Nat)

instance : Decoding Parser where
  pure a := fun _ consumed => .ok (a, consumed)
  bind p f := fun arena consumed => (p arena consumed).bind fun (a, consumed) => f a arena consumed
  bail := fun _ _ => .err
  unwrap x := fun _ consumed => (Outcome.unwrap x).bind fun a => .ok (a, consumed)
  add a b := fun _ consumed => (Profile.dev.add 64 a b).bind fun sum => .ok (sum, consumed)
  addLength a b := fun _ consumed => (Profile.dev.add 64 a b).bind fun sum => .ok (sum, consumed)
  tryAlloc layout := fun arena consumed =>
    (arena.reserve layout.align layout.size consumed).bind fun consumed => .ok ((), consumed)
  tryAllocArray layout count := fun arena consumed => do
    let size ← Profile.dev.mul 64 layout.size count
    let consumed ← arena.reserve layout.align size consumed
    pure ((), consumed)

/-- A decoder that works on the heap: only its arithmetic is checked. -/
instance : Decoding Outcome where
  toMonad := inferInstance
  bail := .err
  unwrap := Outcome.unwrap
  add := Profile.dev.add 64
  addLength := Profile.dev.add 64
  tryAlloc _ := .ok ()
  tryAllocArray _ _ := .ok ()

/-- A decoder on the heap in the release build: its sums wrap. -/
def Wrapping (α : Type) := Outcome α

instance : Decoding Wrapping where
  toMonad := inferInstanceAs (Monad Outcome)
  bail := .err
  unwrap := Outcome.unwrap
  add := Profile.release.add 64
  addLength := Profile.release.add 64
  tryAlloc _ := .ok ()
  tryAllocArray _ _ := .ok ()

/-- What a decoder asks for: a string of a declared length behind some bytes, or a
block of memory. -/
inductive Demand where
  | text (offset length : Nat)
  | block (size alignment : Nat)
  deriving DecidableEq, Repr

/-- A decoder that only notes its demands. -/
structure Survey (α : Type) where
  demands : List Demand
  result : Option α

instance : Decoding Survey where
  pure a := ⟨[], some a⟩
  bind s f :=
    match s.result with
    | some a => ⟨s.demands ++ (f a).demands, (f a).result⟩
    | none => ⟨s.demands, none⟩
  bail := ⟨[], none⟩
  unwrap x := ⟨[], x⟩
  add a b := ⟨[], some (a + b)⟩
  addLength a b := ⟨[.text a b], some (a + b)⟩
  tryAlloc layout := ⟨[.block layout.size layout.align], some ()⟩
  tryAllocArray layout count := ⟨[.block (layout.size * count) layout.align], some ()⟩

namespace Arena

/-- The memory consumed once all demands are met. -/
def after (arena : Arena) (consumed : Nat) : List Demand → Nat
  | [] => consumed
  | .text _ _ :: rest => arena.after consumed rest
  | .block size alignment :: rest => arena.after (consumed + arena.padding alignment consumed + size) rest

/-- Each string ends below `2 ^ 64`, and the blocks fit one after another. -/
def Fits (arena : Arena) (consumed : Nat) : List Demand → Prop
  | [] => True
  | .text offset length :: rest => offset + length < 2 ^ 64 ∧ arena.Fits consumed rest
  | .block size alignment :: rest =>
    consumed + arena.padding alignment consumed + size ≤ arena.capacity ∧
      arena.Fits (consumed + arena.padding alignment consumed + size) rest

instance decidableFits (arena : Arena) : (consumed : Nat) → (demands : List Demand) →
    Decidable (arena.Fits consumed demands)
  | _, [] => inferInstanceAs (Decidable True)
  | consumed, .text _ _ :: rest =>
    have := decidableFits arena consumed rest
    inferInstanceAs (Decidable (_ ∧ _))
  | consumed, .block size alignment :: rest =>
    have := decidableFits arena (consumed + arena.padding alignment consumed + size) rest
    inferInstanceAs (Decidable (_ ∧ _))

variable {arena : Arena} {consumed alignment size : Nat} {front back : List Demand}

theorem after_append : arena.after consumed (front ++ back) = arena.after (arena.after consumed front) back := by
  induction front generalizing consumed with
  | nil => rfl
  | cons demand front ih =>
    cases demand with
    | text offset length => exact ih
    | block size alignment => exact ih

theorem fits_append :
    arena.Fits consumed (front ++ back) ↔ arena.Fits consumed front ∧ arena.Fits (arena.after consumed front) back := by
  induction front generalizing consumed with
  | nil => simp [Fits, after]
  | cons demand front ih =>
    cases demand with
    | text offset length => rw [List.cons_append, Fits, Fits, ih, and_assoc, after]
    | block size alignment => rw [List.cons_append, Fits, Fits, ih, and_assoc, after]

theorem reserve_of_le (fits : consumed + arena.padding alignment consumed + size ≤ arena.capacity) :
    arena.reserve alignment size consumed = .ok (consumed + arena.padding alignment consumed + size) := by
  have bound := arena.inBounds
  rw [reserve, Profile.add_of_lt (by omega), Outcome.ok_bind, Profile.add_of_lt (by omega), Outcome.ok_bind, if_pos fits]
  rfl

theorem reserve_of_not_le (unfit : ¬ consumed + arena.padding alignment consumed + size ≤ arena.capacity) :
    arena.reserve alignment size consumed = .fault := by
  rw [reserve]
  by_cases first : consumed + arena.padding alignment consumed < 2 ^ 64
  · rw [Profile.add_of_lt first, Outcome.ok_bind]
    by_cases second : consumed + arena.padding alignment consumed + size < 2 ^ 64
    · rw [Profile.add_of_lt second, Outcome.ok_bind, if_neg unfit]
    · rw [Profile.add, if_neg second]
      rfl
  · rw [Profile.add, if_neg first]
    rfl

theorem reserveArray_of_le {layout : Layout} {count : Nat}
    (fits : consumed + arena.padding layout.align consumed + layout.size * count ≤ arena.capacity) :
    arena.reserveArray layout count consumed =
      .ok (consumed + arena.padding layout.align consumed + layout.size * count) := by
  have bound := arena.inBounds
  rw [reserveArray, Profile.mul_of_lt (by omega), Outcome.ok_bind, reserve_of_le fits]

theorem reserveArray_of_not_le {layout : Layout} {count : Nat}
    (unfit : ¬ consumed + arena.padding layout.align consumed + layout.size * count ≤ arena.capacity) :
    arena.reserveArray layout count consumed = .fault := by
  by_cases small : layout.size * count < 2 ^ 64
  · rw [reserveArray, Profile.mul_of_lt small, Outcome.ok_bind, reserve_of_not_le unfit]
  · rw [reserveArray, Profile.mul, if_neg small]
    rfl

end Arena

/-- The block of memory of an array. -/
def Demand.array (array : Layout × Nat) : Demand :=
  .block (array.1.size * array.2) array.1.align

namespace Arena

variable {arena : Arena} {consumed used : Nat} {arrays : List (Layout × Nat)}

/-- Arrays of bytes lie next to each other. -/
theorem after_bytes (sizes : List Nat) : arena.after consumed (sizes.map (.block · 1)) = consumed + sizes.sum := by
  induction sizes generalizing consumed with
  | nil => rfl
  | cons size sizes ih =>
    rw [List.map_cons, after, ih, padding, Nat.mod_one, List.sum_cons]
    omega

theorem fits_bytes (sizes : List Nat) (inside : consumed ≤ arena.capacity) :
    arena.Fits consumed (sizes.map (.block · 1)) ↔ consumed + sizes.sum ≤ arena.capacity := by
  induction sizes generalizing consumed with
  | nil => exact ⟨fun _ => inside, fun _ => trivial⟩
  | cons size sizes ih =>
    rw [List.map_cons, Fits, padding, Nat.mod_one, List.sum_cons, Nat.add_zero, ← Nat.add_assoc]
    constructor
    · intro ⟨first, rest⟩
      exact (ih first).mp rest
    · intro all
      have first : consumed + size ≤ arena.capacity := (Nat.le_add_right _ _).trans all
      exact ⟨first, (ih first).mpr all⟩

theorem reserveArrays_append {front back : List (Layout × Nat)} :
    arena.reserveArrays (front ++ back) consumed = arena.reserveArrays front consumed >>= arena.reserveArrays back := by
  induction front generalizing consumed with
  | nil => rfl
  | cons array front ih =>
    obtain ⟨layout, count⟩ := array
    rw [List.cons_append, reserveArrays, reserveArrays]
    cases arena.reserveArray layout count consumed with
    | ok middle => exact ih
    | err => rfl
    | fault => rfl

/-- The arrays are taken when they fit one behind the other, else the arena panics. -/
theorem reserveArrays_eq_ok : arena.reserveArrays arrays consumed = .ok used ↔
    arena.Fits consumed (arrays.map .array) ∧ used = arena.after consumed (arrays.map .array) := by
  induction arrays generalizing consumed with
  | nil =>
    rw [reserveArrays, Outcome.ok.injEq]
    exact ⟨fun same => ⟨trivial, same.symm⟩, fun same => same.2.symm⟩
  | cons array arrays ih =>
    obtain ⟨layout, count⟩ := array
    rw [reserveArrays]
    by_cases fits : consumed + arena.padding layout.align consumed + layout.size * count ≤ arena.capacity
    · rw [reserveArray_of_le fits, Outcome.ok_bind, ih]
      exact ⟨fun ⟨rest, same⟩ => ⟨⟨fits, rest⟩, same⟩, fun ⟨all, same⟩ => ⟨all.2, same⟩⟩
    · rw [reserveArray_of_not_le fits, Outcome.fault_bind]
      exact ⟨nofun, fun ⟨all, _⟩ => absurd all.1 fits⟩

theorem reserveArrays_unfit (unfit : ¬ arena.Fits consumed (arrays.map .array)) :
    arena.reserveArrays arrays consumed = .fault := by
  induction arrays generalizing consumed with
  | nil => exact absurd trivial unfit
  | cons array arrays ih =>
    obtain ⟨layout, count⟩ := array
    rw [reserveArrays]
    by_cases fits : consumed + arena.padding layout.align consumed + layout.size * count ≤ arena.capacity
    · rw [reserveArray_of_le fits, Outcome.ok_bind]
      exact ih fun rest => unfit ⟨fits, rest⟩
    · rw [reserveArray_of_not_le fits]
      rfl

theorem exists_reserveArrays :
    (∃ used, arena.reserveArrays arrays consumed = .ok used) ↔ arena.Fits consumed (arrays.map .array) := by
  simp only [reserveArrays_eq_ok]
  exact ⟨fun ⟨_, fits, _⟩ => fits, fun fits => ⟨_, fits, rfl⟩⟩

end Arena

/-- The parser returns what the survey says if its demands are met, and panics if
not; a result satisfies `post`. -/
structure Agrees {α : Type} (post : α → Prop) (p : Parser α) (s : Survey α) : Prop where
  fits : ∀ arena consumed, arena.Fits consumed s.demands →
    p arena consumed = (Outcome.orErr s.result).bind fun a => .ok (a, arena.after consumed s.demands)
  unfit : ∀ arena consumed, ¬ arena.Fits consumed s.demands → p arena consumed = .fault
  result : ∀ a, s.result = some a → post a

namespace Agrees

variable {α β : Type} {P Q : α → Prop} {R : β → Prop} {p : Parser α} {s : Survey α} {a b : Nat} {layout : Layout}

theorem mono (agrees : Agrees P p s) (weaker : ∀ a, P a → Q a) : Agrees Q p s :=
  ⟨agrees.fits, agrees.unfit, fun a result => weaker a (agrees.result a result)⟩

theorem pure {a : α} (holds : P a) : Agrees P (Pure.pure a) (Pure.pure a) where
  fits _ _ _ := rfl
  unfit _ _ unfit := absurd trivial unfit
  result _ same := Option.some.inj same ▸ holds

theorem bail : Agrees P bail bail where
  fits _ _ _ := rfl
  unfit _ _ unfit := absurd trivial unfit
  result _ same := by cases same

/-- The relation is a congruence: a result of the first part may be assumed to
satisfy its postcondition. -/
theorem bind {f : α → Parser β} {g : α → Survey β} (first : Agrees P p s) (next : ∀ a, P a → Agrees R (f a) (g a)) :
    Agrees R (p >>= f) (s >>= g) := by
  obtain ⟨demands, result⟩ := s
  cases result with
  | none =>
    exact {
      fits := fun arena consumed fits =>
        congrArg (Outcome.bind · fun (a, consumed) => f a arena consumed) (first.fits arena consumed fits)
      unfit := fun arena consumed unfit =>
        congrArg (Outcome.bind · fun (a, consumed) => f a arena consumed) (first.unfit arena consumed unfit)
      result := fun _ same => by cases same }
  | some a =>
    have rest := next a (first.result a rfl)
    exact {
      fits := by
        intro arena consumed fits
        obtain ⟨fitsFirst, fitsRest⟩ := Arena.fits_append.mp fits
        have start := congrArg (Outcome.bind · fun (a, consumed) => f a arena consumed) (first.fits arena consumed fitsFirst)
        refine start.trans ((rest.fits arena _ fitsRest).trans ?_)
        exact congrArg (fun used => (Outcome.orErr (g a).result).bind fun b => .ok (b, used)) Arena.after_append.symm
      unfit := by
        intro arena consumed unfit
        by_cases fitsFirst : arena.Fits consumed demands
        · have start := congrArg (Outcome.bind · fun (a, consumed) => f a arena consumed)
            (first.fits arena consumed fitsFirst)
          refine start.trans (rest.unfit arena _ fun fitsRest => unfit ?_)
          exact Arena.fits_append.mpr ⟨fitsFirst, fitsRest⟩
        · exact congrArg (Outcome.bind · fun (a, consumed) => f a arena consumed) (first.unfit arena consumed fitsFirst)
      result := rest.result }

theorem orBail (x : Option α) : Agrees (fun a => x = some a) (orBail x) (orBail x) := by
  cases x with
  | none => exact bail
  | some a => exact pure rfl

theorem ensure (condition : Prop) [Decidable condition] :
    Agrees (fun _ => condition) (Lib.ensure condition) (Lib.ensure condition) := by
  unfold Lib.ensure
  split
  · next holds => exact pure holds
  · exact bail

theorem ite {condition : Prop} [Decidable condition] {q : Parser α} {t : Survey α}
    (yes : condition → Agrees P p s) (no : ¬ condition → Agrees P q t) :
    Agrees P (if condition then p else q) (if condition then s else t) := by
  split
  · next holds => exact yes holds
  · next fails => exact no fails

theorem unwrap {x : Option α} {a : α} (present : x = some a) :
    Agrees (· = a) (Decoding.unwrap x) (Decoding.unwrap x) := by
  subst present
  exact pure rfl

theorem add (bound : a + b < 2 ^ 64) : Agrees (· = a + b) (Decoding.add a b) (Decoding.add a b) where
  fits _ _ _ := congrArg (Outcome.bind · _) (Profile.add_of_lt bound)
  unfit _ _ unfit := absurd trivial unfit
  result _ same := (Option.some.inj same).symm

/-- A sum with a declared length is a demand, so nothing is known about its size. -/
theorem addLength : Agrees (· = a + b) (Decoding.addLength a b) (Decoding.addLength a b) where
  fits _ _ fits := congrArg (Outcome.bind · _) (Profile.add_of_lt fits.1)
  unfit _ _ unfit := by
    have overflows : ¬ a + b < 2 ^ 64 := fun bound => unfit ⟨bound, trivial⟩
    have fault : Profile.dev.add 64 a b = .fault := if_neg overflows
    exact congrArg (Outcome.bind · _) fault
  result _ same := (Option.some.inj same).symm

theorem tryAlloc : Agrees (fun _ => True) (Decoding.tryAlloc layout) (Decoding.tryAlloc layout) where
  fits _ _ fits := congrArg (Outcome.bind · _) (Arena.reserve_of_le fits.1)
  unfit _ _ unfit := congrArg (Outcome.bind · _) (Arena.reserve_of_not_le fun room => unfit ⟨room, trivial⟩)
  result _ _ := trivial

theorem tryAllocArray {count : Nat} :
    Agrees (fun _ => True) (Decoding.tryAllocArray layout count) (Decoding.tryAllocArray layout count) where
  fits arena consumed fits := by
    have room := fits.1
    have bound := arena.inBounds
    have size : Profile.dev.mul 64 layout.size count = .ok (layout.size * count) := Profile.mul_of_lt (by omega)
    have reserve := Arena.reserve_of_le room
    change (do
      let size ← Profile.dev.mul 64 layout.size count
      let consumed ← arena.reserve layout.align size consumed
      Pure.pure ((), consumed)) = _
    rw [size, Outcome.ok_bind, reserve]
    rfl
  unfit arena consumed unfit := by
    have reserve : arena.reserve layout.align (layout.size * count) consumed = .fault :=
      Arena.reserve_of_not_le fun room => unfit ⟨room, trivial⟩
    change (do
      let size ← Profile.dev.mul 64 layout.size count
      let consumed ← arena.reserve layout.align size consumed
      Pure.pure ((), consumed)) = _
    by_cases small : layout.size * count < 2 ^ 64
    · rw [Profile.mul_of_lt small, Outcome.ok_bind, reserve]
      rfl
    · rw [Profile.mul, if_neg small]
      rfl
  result _ _ := trivial

/-- The parser panics exactly if a demand cannot be met. -/
theorem fault_iff {arena : Arena} {consumed : Nat} (agrees : Agrees P p s) :
    p arena consumed = .fault ↔ ¬ arena.Fits consumed s.demands := by
  refine ⟨fun fault fits => ?_, agrees.unfit arena consumed⟩
  rw [agrees.fits arena consumed fits] at fault
  cases present : s.result with
  | none => rw [present] at fault; cases fault
  | some a => rw [present] at fault; cases fault

/-- What the parser returns satisfies the postcondition. -/
theorem of_ok {arena : Arena} {consumed used : Nat} {a : α} (agrees : Agrees P p s)
    (returned : p arena consumed = .ok (a, used)) : P a := by
  by_cases fits : arena.Fits consumed s.demands
  · rw [agrees.fits arena consumed fits] at returned
    cases found : s.result with
    | none =>
      rw [found] at returned
      cases returned
    | some b =>
      rw [found] at returned
      cases returned
      exact agrees.result _ found
  · rw [agrees.unfit arena consumed fits] at returned
    cases returned

end Agrees

theorem parser_bind {α β : Type} {p : Parser α} {f : α → Parser β} {arena : Arena} {consumed used : Nat} {a : α}
    (first : p arena consumed = .ok (a, used)) : (p >>= f) arena consumed = f a arena used :=
  congrArg (Outcome.bind · fun (a, consumed) => f a arena consumed) first

theorem parser_bind_eq_ok {α β : Type} {p : Parser α} {f : α → Parser β} {arena : Arena} {consumed used : Nat} {b : β} :
    (p >>= f) arena consumed = .ok (b, used) ↔
      ∃ a mid, p arena consumed = .ok (a, mid) ∧ f a arena mid = .ok (b, used) := by
  change (p arena consumed).bind (fun (a, mid) => f a arena mid) = .ok (b, used) ↔ _
  cases p arena consumed with
  | ok result =>
    obtain ⟨a, mid⟩ := result
    constructor
    · intro next
      exact ⟨a, mid, rfl, next⟩
    · rintro ⟨_, _, same, next⟩
      cases same
      exact next
  | err => simp [Outcome.bind]
  | fault => simp [Outcome.bind]

/-- Unless it panics, the parser returns what the decoder on the heap returns. -/
def Follows {α : Type} (p : Parser α) (o : Outcome α) : Prop :=
  ∀ arena consumed a, o = .ok a → p arena consumed ≠ .fault → ∃ used, p arena consumed = .ok (a, used)

namespace Follows

variable {α β : Type} {p : Parser α} {o : Outcome α}

theorem pure (a : α) : Follows (Pure.pure a) (Pure.pure a) := by
  intro arena consumed b same _
  cases same
  exact ⟨consumed, rfl⟩

theorem bail : Follows (α := α) bail bail := by
  intro arena consumed b same
  cases same

theorem bind {f : α → Parser β} {g : α → Outcome β} (first : Follows p o) (next : ∀ a, Follows (f a) (g a)) :
    Follows (p >>= f) (o >>= g) := by
  intro arena consumed b result returns
  obtain ⟨a, atFirst, atNext⟩ := Outcome.bind_eq_ok.mp result
  have split : (p >>= f) arena consumed = (p arena consumed).bind fun (a, used) => f a arena used := rfl
  have started : p arena consumed ≠ .fault := by
    intro fault
    rw [split, fault] at returns
    exact returns rfl
  obtain ⟨used, ran⟩ := first arena consumed a atFirst started
  rw [split, ran] at returns ⊢
  exact next a arena used b atNext returns

theorem orBail (x : Option α) : Follows (orBail x) (orBail x) := by
  cases x with
  | none => exact bail
  | some a => exact pure a

theorem ensure (condition : Prop) [Decidable condition] : Follows (Lib.ensure condition) (Lib.ensure condition) := by
  unfold Lib.ensure
  split
  · exact pure ()
  · exact bail

theorem ite {condition : Prop} [Decidable condition] {q : Parser α} {r : Outcome α} (yes : Follows p o)
    (no : Follows q r) : Follows (if condition then p else q) (if condition then o else r) := by
  split
  · exact yes
  · exact no

theorem unwrap (x : Option α) : Follows (Decoding.unwrap x) (Decoding.unwrap x) := by
  intro arena consumed a same _
  exact ⟨consumed, congrArg (Outcome.bind · fun a => .ok (a, consumed)) same⟩

theorem add (a b : Nat) : Follows (Decoding.add a b) (Decoding.add a b) := by
  intro arena consumed sum same _
  exact ⟨consumed, congrArg (Outcome.bind · fun sum => .ok (sum, consumed)) same⟩

theorem addLength (a b : Nat) : Follows (Decoding.addLength a b) (Decoding.addLength a b) := by
  intro arena consumed sum same _
  exact ⟨consumed, congrArg (Outcome.bind · fun sum => .ok (sum, consumed)) same⟩

theorem tryAlloc (layout : Layout) : Follows (Decoding.tryAlloc layout) (Decoding.tryAlloc layout) := by
  intro arena consumed a _ returns
  have agrees := @Agrees.tryAlloc layout
  by_cases fits : arena.Fits consumed (Decoding.tryAlloc (m := Survey) layout).demands
  · exact ⟨_, agrees.fits arena consumed fits⟩
  · exact absurd (agrees.unfit arena consumed fits) returns

theorem tryAllocArray (layout : Layout) (count : Nat) :
    Follows (Decoding.tryAllocArray layout count) (Decoding.tryAllocArray layout count) := by
  intro arena consumed a _ returns
  have agrees := @Agrees.tryAllocArray layout count
  by_cases fits : arena.Fits consumed (Decoding.tryAllocArray (m := Survey) layout count).demands
  · exact ⟨_, agrees.fits arena consumed fits⟩
  · exact absurd (agrees.unfit arena consumed fits) returns

end Follows

end Bitlens.Lib

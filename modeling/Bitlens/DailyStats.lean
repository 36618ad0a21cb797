import Bitlens.Stats

namespace Bitlens
open Lib

variable {F : Type} [Zero F] {p : Profile} {f : Floats F} {c : Chain} {hash top : Hash} {b : BlockHeaderWithNumber}
  {blocks older : List BlockHeaderWithNumber} {cutoff : Nat} {findBlockMetrics : Hash → Option (BlockMetrics F)}
  {metrics : Hash → BlockMetrics F}

/-- The blocks of a day. -/
def dayBlocks (blocks : List BlockHeaderWithNumber) (d : Nat) : List BlockHeaderWithNumber :=
  blocks.filter fun b => d ≤ b.time ∧ b.time < d + 86400

theorem mem_dayBlocks {d : Nat} : b ∈ dayBlocks blocks d ↔ b ∈ blocks ∧ d ≤ b.time ∧ b.time < d + 86400 := by
  simp [dayBlocks]

omit [Zero F] in
theorem closedDays_cutoffs_nodup (metrics : Hash → BlockMetrics F) {start : Nat} (aligned : 86400 ∣ start)
    (blocks : List BlockHeaderWithNumber) : ((closedDays metrics start blocks).map (·.1)).Nodup := by
  rw [closedDays, List.map_map]
  exact closedRuns_cutoffs_nodup (by decide) aligned

/-- What `calculate_stats` should enter for each day: the sums over exactly the relevant blocks of
that day, with no division by zero on the way. -/
structure GroupsByDay (p : Profile) (f : Floats F) (c : Chain) (findBlockMetrics : Hash → Option (BlockMetrics F))
    (top : Hash) (relevant : List BlockHeaderWithNumber) (metrics : Hash → BlockMetrics F) : Prop where
  volume : ∀ stats, calculateStats p f c findBlockMetrics top none = .ok stats → ∀ d v, stats.volume d = some v →
    p.sum 64 (volumes (metricsOf metrics (dayBlocks relevant d))) = .ok v
  transactions : ∀ stats, calculateStats p f c findBlockMetrics top none = .ok stats → ∀ d t,
    stats.transactions d = some t → p.sum 64 (txsCounts (metricsOf metrics (dayBlocks relevant d))) = .ok t
  divides : ∀ div, (∀ x n, n ≠ 0 → f.div x n = div x n) →
    calculateStats p f c findBlockMetrics top none =
      calculateStats p { f with div := div } c findBlockMetrics top none

/-- The metrics that tell one block from all others. -/
def indicator (hash h : Hash) : BlockMetrics F := ⟨if h = hash then 1 else 0, 0, 0⟩

theorem sum_volumes_indicator (hash : Hash) (blocks : List BlockHeaderWithNumber) :
    (volumes (metricsOf (indicator hash : Hash → BlockMetrics F) blocks)).sum =
      (blocks.map (·.header.hash)).count hash := by
  induction blocks with
  | nil => rfl
  | cons b blocks ih =>
    rw [List.map_cons, List.count_cons, ← ih, metricsOf, List.map_cons, volumes, List.map_cons, List.sum_cons,
      Nat.add_comm]
    by_cases same : b.header.hash = hash <;> simp [indicator, same, volumes, metricsOf, Subtype.val_inj]

theorem sum_txsCounts_indicator (hash : Hash) (blocks : List BlockHeaderWithNumber) :
    (txsCounts (metricsOf (indicator hash : Hash → BlockMetrics F) blocks)).sum = 0 := by
  induction blocks with
  | nil => rfl
  | cons b blocks ih => simpa [metricsOf, txsCounts, indicator] using ih

/-- In a list of different blocks the indicator sums up to one where the block is. -/
theorem sum_indicator (hash : Hash) (distinct : (blocks.map (·.header.hash)).Nodup) :
    p.sum 64 (volumes (metricsOf (indicator hash : Hash → BlockMetrics F) blocks)) =
      .ok (if hash ∈ blocks.map (·.header.hash) then 1 else 0) := by
  have counted := sum_volumes_indicator (F := F) hash blocks
  rw [distinct.count] at counted
  rw [Profile.sum_of_lt, counted]
  rw [counted]
  split <;> decide

theorem exists_insertDays_indicator (f : Floats F) (hash : Hash) (start : Nat) (result : Stats F)
    (distinct : (blocks.map (·.header.hash)).Nodup) :
    ∃ stats, insertDays p f (closedDays (indicator hash) start blocks) result = .ok stats := by
  refine exists_insertDays.mpr fun day member => ?_
  obtain ⟨closed, inRuns, rfl⟩ := List.mem_map.mp member
  have part : (closed.2.map (·.header.hash)).Nodup := ((closedRuns_sublist inRuns).map _).nodup distinct
  refine ⟨⟨_, sum_indicator hash part⟩, 0, ?_⟩
  rw [Profile.sum_of_lt, sum_txsCounts_indicator]
  rw [sum_txsCounts_indicator]
  decide

theorem mem_of_hash_mem (distinct : (blocks.map (·.header.hash)).Nodup) {part : List BlockHeaderWithNumber}
    (within : part ⊆ blocks) (member : b ∈ blocks) : b.header.hash ∈ part.map (·.header.hash) ↔ b ∈ part := by
  constructor
  · intro inPart
    obtain ⟨other, here, same⟩ := List.mem_map.mp inPart
    rwa [← List.inj_on_of_nodup_map distinct (within here) member same]
  · exact fun here => List.mem_map.mpr ⟨b, here, rfl⟩

/-- The metrics of a block's indicator sum up alike over two parts where the block is in both or in
neither. -/
theorem mem_iff_of_indicator {front back : List BlockHeaderWithNumber} (distinct : (blocks.map (·.header.hash)).Nodup)
    (inFront : front.Sublist blocks) (inBack : back.Sublist blocks) (member : b ∈ blocks)
    (same : p.sum 64 (volumes (metricsOf (indicator b.header.hash : Hash → BlockMetrics F) front)) =
      p.sum 64 (volumes (metricsOf (indicator b.header.hash : Hash → BlockMetrics F) back))) :
    b ∈ front ↔ b ∈ back := by
  rw [sum_indicator _ ((inFront.map _).nodup distinct), sum_indicator _ ((inBack.map _).nodup distinct),
    Outcome.ok.injEq] at same
  rw [← mem_of_hash_mem distinct inFront.subset member, ← mem_of_hash_mem distinct inBack.subset member]
  by_cases here : b.header.hash ∈ front.map (·.header.hash)
  · by_cases there : b.header.hash ∈ back.map (·.header.hash)
    · exact iff_of_true here there
    · rw [if_pos here, if_neg there] at same
      cases same
  · by_cases there : b.header.hash ∈ back.map (·.header.hash)
    · rw [if_neg here, if_pos there] at same
      cases same
    · exact iff_of_false here there

/-- A closed run with exactly the blocks of its day holds them up to order. -/
theorem perm_dayBlocks {closed : Nat × List BlockHeaderWithNumber} {start : Nat} (distinct : blocks.Nodup)
    (exact : Exact BlockHeaderWithNumber.time 86400 blocks
      (closedRuns BlockHeaderWithNumber.time 86400 start [] blocks))
    (member : closed ∈ closedRuns BlockHeaderWithNumber.time 86400 start [] blocks) :
    closed.2.Perm (dayBlocks blocks closed.1) := by
  have part := closedRuns_sublist member
  rw [List.nil_append] at part
  have day : (dayBlocks blocks closed.1).Nodup := distinct.filter _
  refine (List.perm_ext_iff_of_nodup (part.nodup distinct) day).mpr fun x => ?_
  rw [mem_dayBlocks]
  constructor
  · exact fun inside => ⟨part.subset inside, (exact closed member x (part.subset inside)).mp inside⟩
  · exact fun ⟨inBlocks, atDay⟩ => (exact closed member x inBlocks).mpr atDay

theorem head_relevantBlocks (older : List BlockHeaderWithNumber) (window : p.sub 32 b.time (86400 * 15) = .ok cutoff) :
    relevantBlocks p (b :: older) = b :: older.takeWhile fun b => cutoff ≤ b.time := by
  rw [relevantBlocks, window]

/-- The maps hold the totals of the calendar days, for every chain and all metrics, if and only if
the timestamps of the relevant blocks fall day by day. -/
theorem groupsByDay_iff (ancestry : c.Ancestry top blocks) :
    (∀ (findBlockMetrics : Hash → Option (BlockMetrics F)) metrics,
        (∀ b ∈ relevantBlocks p blocks, findBlockMetrics b.header.hash = some (metrics b.header.hash)) →
          GroupsByDay p f c findBlockMetrics top (relevantBlocks p blocks) metrics) ↔
      Falls BlockHeaderWithNumber.time 86400 (midnight blocks) (relevantBlocks p blocks) := by
  obtain ⟨b, older, rfl⟩ := ancestry.exists_cons
  have hashes : ((relevantBlocks p (b :: older)).map (·.header.hash)).Nodup :=
    ((relevantBlocks_isPrefix p _).sublist.map _).nodup ancestry.hashes_nodup
  have distinct : (relevantBlocks p (b :: older)).Nodup := hashes.of_map
  cases window : p.sub 32 b.time (86400 * 15) with
  | err => exact absurd window Profile.sub_ne_err
  | fault =>
    -- No statistics are returned and no block is relevant.
    have none : relevantBlocks p (b :: older) = [] := by rw [relevantBlocks, window]
    refine iff_of_true (fun findBlockMetrics metrics _ => ⟨?_, ?_, ?_⟩) ?_
    · intro stats result
      rw [ancestry.calculateStats_of_fault window] at result
      cases result
    · intro stats result
      rw [ancestry.calculateStats_of_fault window] at result
      cases result
    · intro div _
      rw [ancestry.calculateStats_of_fault window, ancestry.calculateStats_of_fault window]
    · rw [none]
      exact Or.inl (by simp)
  | ok cutoff =>
    have first := head_relevantBlocks older window
    have exactIff : Exact BlockHeaderWithNumber.time 86400 _ _ ↔ _ :=
      exact_closedRuns_iff (first ▸ distinct) (midnight_dvd (b :: older)) (midnight_le b older)
    rw [← first] at exactIff
    rw [← exactIff]
    constructor
    · intro groups closed member x inBlocks
      -- The metrics that count the block `x` alone tell whether it is in the run and on the day.
      have found : ∀ y ∈ relevantBlocks p (b :: older),
          some (indicator (F := F) x.header.hash y.header.hash) = some (indicator x.header.hash y.header.hash) :=
        fun _ _ => rfl
      have holds := (groups (fun hash => some (indicator x.header.hash hash)) _ found).volume
      obtain ⟨stats, entered⟩ := exists_insertDays_indicator (p := p) f x.header.hash (midnight (b :: older)) .default
        hashes
      have keys := closedDays_cutoffs_nodup (indicator x.header.hash : Hash → BlockMetrics F)
        (midnight_dvd (b :: older))
        (relevantBlocks p (b :: older))
      obtain ⟨v, atDay, total⟩ := insertDays_volume keys entered (List.mem_map_of_mem member)
      have day := holds stats ((ancestry.calculateStats_none window found).trans entered) closed.1 v atDay
      have inDay : (dayBlocks (relevantBlocks p (b :: older)) closed.1).Sublist (relevantBlocks p (b :: older)) :=
        List.filter_sublist
      have same := mem_iff_of_indicator hashes inDay (closedRuns_sublist member) inBlocks (day.trans total.symm)
      rw [← same, mem_dayBlocks]
      exact and_iff_right inBlocks
    · intro exact findBlockMetrics metrics found
      have result := ancestry.calculateStats_none (f := f) window found
      refine ⟨fun stats returned d v atDay => ?_, fun stats returned d t atDay => ?_, fun div same => ?_⟩
      · rw [result] at returned
        rcases (insertDays_origin returned).1 v atDay with ⟨day, inDays, rfl, total⟩ | before
        · obtain ⟨closed, member, rfl⟩ := List.mem_map.mp inDays
          rw [← total]
          exact Profile.sum_of_perm (((perm_dayBlocks distinct exact member).symm.map _).map _)
        · cases before
      · rw [result] at returned
        rcases (insertDays_origin returned).2 t atDay with ⟨day, inDays, rfl, total⟩ | before
        · obtain ⟨closed, member, rfl⟩ := List.mem_map.mp inDays
          rw [← total]
          exact Profile.sum_of_perm (((perm_dayBlocks distinct exact member).symm.map _).map _)
        · cases before
      · rw [result, ancestry.calculateStats_none window found]
        refine insertDays_div (fun day inDays => ?_) same
        obtain ⟨closed, member, rfl⟩ := List.mem_map.mp inDays
        rw [first, closedRuns, if_neg (Nat.not_lt.mpr (midnight_le b older))] at member
        exact fun none => closedRuns_ne_nil (List.cons_ne_nil b []) member (List.map_eq_nil_iff.mp none)

/-- A header at this height with the next byte as its hash. -/
def datedBlock (n : Nat) (parent : Hash) (timestamp : UInt32) : BlockHeaderWithNumber :=
  ⟨⟨1, parent, emptyHash, timestamp, 0, 0, 1, ByteArr.fill 32 (UInt8.ofNat (n + 1))⟩, n, true, 0, none⟩

/-- Three blocks with these timestamps, newest first. -/
def datedBlocks (first second third : UInt32) : List BlockHeaderWithNumber :=
  [datedBlock 2 (ByteArr.fill 32 2) third, datedBlock 1 (ByteArr.fill 32 1) second, datedBlock 0 emptyHash first]

def chainOfBlocks (blocks : List BlockHeaderWithNumber) : Chain where
  topHeader := blocks.headD (datedBlock 0 emptyHash 0)
  knownHeaders := blocks.foldr (fun b map => mapInsert map b.header.hash b) fun _ => none
  numberToHash := fun _ => none
  mostWorkChain := ∅

theorem datedBlocks_ancestry (first second third : UInt32) :
    (chainOfBlocks (datedBlocks first second third)).Ancestry (ByteArr.fill 32 3) (datedBlocks first second third) :=
  have second : (ByteArr.fill 32 2 : Hash) ≠ emptyHash := by decide
  have first : (ByteArr.fill 32 1 : Hash) ≠ emptyHash := by decide
  .child rfl rfl second rfl (.child rfl rfl first rfl (.root rfl rfl rfl rfl))

/-- Rational numbers in place of `f64`. -/
def rationals : Floats ℚ := ⟨(· + ·), fun x n => x / n⟩

/-- Three blocks, none of them on the day before the newest one. -/
def gapBlocks : List BlockHeaderWithNumber := datedBlocks 1468805 1555300 1771200

theorem groupsByDay_iff_gap :
    (∀ (findBlockMetrics : Hash → Option (BlockMetrics ℚ)) metrics,
        (∀ b ∈ relevantBlocks .dev gapBlocks, findBlockMetrics b.header.hash = some (metrics b.header.hash)) →
          GroupsByDay .dev rationals (chainOfBlocks gapBlocks) findBlockMetrics (ByteArr.fill 32 3)
            (relevantBlocks .dev gapBlocks) metrics) ↔
      Falls BlockHeaderWithNumber.time 86400 (midnight gapBlocks) (relevantBlocks .dev gapBlocks) :=
  groupsByDay_iff (datedBlocks_ancestry 1468805 1555300 1771200)

/-- The block before the gap is entered for the day in the gap. -/
theorem groupsByDay_fails :
    (chainOfBlocks gapBlocks).Ancestry (ByteArr.fill 32 3) gapBlocks ∧
      ¬ GroupsByDay .dev rationals (chainOfBlocks gapBlocks) (fun _ => some ⟨1, 1, 0⟩) (ByteArr.fill 32 3)
        (relevantBlocks .dev gapBlocks) fun _ => ⟨1, 1, 0⟩ := by
  refine ⟨datedBlocks_ancestry _ _ _, fun groups => ?_⟩
  have window : Profile.dev.sub 32 (datedBlock 2 (ByteArr.fill 32 2) 1771200).time (86400 * 15) = .ok 475200 := rfl
  have result : calculateStats .dev rationals (chainOfBlocks gapBlocks) (fun _ => some ⟨1, 1, 0⟩) (ByteArr.fill 32 3)
      none = insertDays .dev rationals
        (closedDays (fun _ => ⟨1, 1, 0⟩) (midnight gapBlocks) (relevantBlocks .dev gapBlocks)) .default :=
    (datedBlocks_ancestry 1468805 1555300 1771200).calculateStats_none window fun _ _ => rfl
  have runs : closedRuns BlockHeaderWithNumber.time 86400 (midnight gapBlocks) [] (relevantBlocks .dev gapBlocks) =
      [(1728000, [datedBlock 2 (ByteArr.fill 32 2) 1771200]),
        (1641600, [datedBlock 1 (ByteArr.fill 32 1) 1555300])] := by decide +kernel
  have inGap : dayBlocks (relevantBlocks .dev gapBlocks) 1641600 = [] := by decide +kernel
  have day := groups.volume _ (result.trans (by rw [closedDays, runs]; rfl)) 1641600 1 rfl
  rw [inGap, Profile.sum_of_lt (by decide)] at day
  cases day

end Bitlens

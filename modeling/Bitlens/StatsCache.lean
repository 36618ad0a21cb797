import Bitlens.DailyStats

namespace Bitlens
open Lib

variable {F : Type} {p : Profile} {f : Floats F} {c : Chain} {hash top : Hash} {b : BlockHeaderWithNumber}
  {blocks older batch relevant : List BlockHeaderWithNumber} {cutoff start : Nat}
  {findBlockMetrics : Hash → Option (BlockMetrics F)} {metrics : Hash → BlockMetrics F}

/-- The volume and transactions maps that are returned. -/
def Stats.totals (result : Outcome (Stats F)) : Outcome ((Nat → Option Nat) × (Nat → Option Nat)) := do
  let stats ← result
  pure (stats.volume, stats.transactions)

/-- With no relevant block before the cutoff the maps are empty. -/
theorem pairedDays_of_late (late : ∀ b ∈ relevant, start ≤ b.time) (taken : List BlockHeaderWithNumber) :
    pairedDays metrics start relevant taken = [] := by
  rw [pairedDays, closedRuns_eq_nil]
  · rfl
  · exact fun pair member => late _ (List.of_mem_zip member).1

/-- The first day that is closed. -/
theorem pairedDays_cons {front back : List BlockHeaderWithNumber} {taken takenBack : List BlockHeaderWithNumber}
    {o : BlockHeaderWithNumber} (late : ∀ x ∈ front, start ≤ x.time) (early : b.time < start)
    (length : front.length = taken.length) :
    pairedDays metrics start (front ++ b :: back) (taken ++ o :: takenBack) =
      (start, metricsOf metrics taken) ::
        (closedRuns (fun pair => pair.1.time) 86400 (start - 86400) [(b, o)] (back.zip takenBack)).map fun closed =>
          (closed.1, metricsOf metrics (closed.2.map (·.2))) := by
  have inFront : ∀ pair ∈ front.zip taken, start ≤ pair.1.time := fun pair member => late _ (List.of_mem_zip member).1
  have second : (front.zip taken).map (·.2) = taken := by rw [List.map_snd_zip (by omega)]
  rw [pairedDays, List.zip_append length, List.zip_cons_cons, closedRuns_append inFront, closedRuns, if_pos early,
    List.map_cons, List.nil_append, second]

theorem pairedDays_cutoffs_nodup (metrics : Hash → BlockMetrics F) (aligned : 86400 ∣ start)
    (relevant taken : List BlockHeaderWithNumber) : ((pairedDays metrics start relevant taken).map (·.1)).Nodup := by
  rw [pairedDays, List.map_map]
  exact closedRuns_cutoffs_nodup (by decide) aligned

/-- Where a batch ends before the first block that is before the cutoff, its metrics are those of
the same blocks in another order. -/
theorem owners_of_short {front back : List BlockHeaderWithNumber}
    (within : front ++ back <+: batch.reverse ++ older) (short : batch.length ≤ front.length) :
    ∃ rest, front = batch.reverse ++ rest ∧ owners batch (front ++ back) = (batch ++ rest) ++ back := by
  have newest : batch.reverse <+: front :=
    List.prefix_of_prefix_length_le (List.prefix_append _ _) ((List.prefix_append front back).trans within) (by simpa)
  obtain ⟨rest, rfl⟩ := newest
  refine ⟨rest, rfl, ?_⟩
  have whole : batch.take (batch.reverse ++ rest ++ back).length = batch := List.take_of_length_le (by simp)
  have behind : (batch.reverse ++ rest ++ back).drop batch.length = rest ++ back := by
    rw [List.append_assoc]
    exact List.drop_left' (List.length_reverse)
  rw [owners, whole, behind, List.append_assoc]

/-- Where it goes on behind that block, the newest block's metrics are not among those taken before. -/
theorem owners_of_long {front newer : List BlockHeaderWithNumber} (back : List BlockHeaderWithNumber)
    (batchIs : batch = newer.reverse ++ [b]) (long : front.length < batch.length) :
    ∃ taken takenBack, owners batch (front ++ back) = taken ++ takenBack ∧ taken.length = front.length ∧
      taken ⊆ newer := by
  refine ⟨newer.reverse.take front.length, (owners batch (front ++ back)).drop front.length, ?_, ?_, ?_⟩
  · rw [batchIs, List.length_append, List.length_singleton, List.length_reverse] at long
    have first : (owners batch (front ++ back)).take front.length = newer.reverse.take front.length := by
      rw [owners, List.take_append_of_le_length, List.take_take, batchIs, List.take_append_of_le_length]
      · congr 1
        simp
      · simp
        omega
      · simp [batchIs]
        omega
    rw [← first, List.take_append_drop]
  · rw [batchIs, List.length_append, List.length_singleton, List.length_reverse] at long
    rw [List.length_take, List.length_reverse]
    omega
  · exact fun x member => List.mem_reverse.mp (List.mem_of_mem_take member)

theorem totals_eq_ok {result : Outcome (Stats F)} {maps : (Nat → Option Nat) × (Nat → Option Nat)} :
    Stats.totals result = .ok maps ↔ ∃ stats, result = .ok stats ∧ (stats.volume, stats.transactions) = maps := by
  rw [Stats.totals, Outcome.bind_eq_ok]
  simp

variable [Zero F]

/-- A day's entries in the maps do not depend on the order of its blocks. -/
theorem insertDay_perm (start : Nat) {day day' : List (BlockMetrics F)} {first second : Stats F} (perm : day.Perm day')
    (volume : first.volume = second.volume) (transactions : first.transactions = second.transactions) :
    (∃ stats stats', insertDay p f start day first = .ok stats ∧ insertDay p f start day' second = .ok stats' ∧
        stats.volume = stats'.volume ∧ stats.transactions = stats'.transactions) ∨
      insertDay p f start day first = .fault ∧ insertDay p f start day' second = .fault := by
  have zero : 0 < 2 ^ 64 := Nat.two_pow_pos 64
  have sameVol : p.sum 64 (volumes day) = p.sum 64 (volumes day') := Profile.sum_of_perm (perm.map _)
  have sameTxs : p.sum 64 (txsCounts day) = p.sum 64 (txsCounts day') := Profile.sum_of_perm (perm.map _)
  simp only [insertDay, sumDay_eq zero zero, Profile.sum_zero_cons, sameVol, sameTxs, volume, transactions]
  cases atVol : p.sum 64 (volumes day') with
  | err => exact absurd atVol Profile.sum_ne_err
  | fault => exact Or.inr ⟨rfl, rfl⟩
  | ok totalVol =>
    cases atTxs : p.sum 64 (txsCounts day') with
    | err => exact absurd atTxs Profile.sum_ne_err
    | fault => exact Or.inr ⟨rfl, rfl⟩
    | ok totalTxs => exact Or.inl ⟨_, _, rfl, rfl, rfl, rfl⟩

theorem totals_insertDays {days : List (Nat × List (BlockMetrics F))} {first second : Stats F}
    (volume : first.volume = second.volume) (transactions : first.transactions = second.transactions) :
    Stats.totals (insertDays p f days first) = Stats.totals (insertDays p f days second) := by
  induction days generalizing first second with
  | nil => simp [insertDays, Stats.totals, volume, transactions]
  | cons day days ih =>
    rw [insertDays, insertDays]
    rcases insertDay_perm (p := p) (f := f) day.1 (.refl day.2) volume transactions with
      ⟨stats, stats', atFirst, atSecond, volume, transactions⟩ | ⟨atFirst, atSecond⟩
    · rw [atFirst, atSecond]
      exact ih volume transactions
    · rw [atFirst, atSecond]

theorem totals_insertDays_perm {days : List (Nat × List (BlockMetrics F))} {day day' : List (BlockMetrics F)}
    (perm : day.Perm day') (result : Stats F) :
    Stats.totals (insertDays p f ((start, day) :: days) result) =
      Stats.totals (insertDays p f ((start, day') :: days) result) := by
  rw [insertDays, insertDays]
  rcases insertDay_perm (p := p) (f := f) start perm (rfl : result.volume = _) rfl with
    ⟨stats, stats', atFirst, atSecond, volume, transactions⟩ | ⟨atFirst, atSecond⟩
  · rw [atFirst, atSecond]
    exact totals_insertDays volume transactions
  · rw [atFirst, atSecond]

section Boundary

variable {front back rest : List BlockHeaderWithNumber} {r : BlockHeaderWithNumber}

/-- A batch of blocks of the newest one's day is paired with its own metrics, in another order. -/
theorem totals_of_short (within : front ++ r :: back <+: batch.reverse ++ older) (short : batch.length ≤ front.length)
    (late : ∀ x ∈ front, start ≤ x.time) (early : r.time < start) (result : Stats F) :
    Stats.totals (insertDays p f (pairedDays metrics start (front ++ r :: back) (owners batch (front ++ r :: back)))
        result) =
      Stats.totals (insertDays p f (closedDays metrics start (front ++ r :: back)) result) := by
  obtain ⟨rest, split, taken⟩ := owners_of_short within short
  have perm : (batch ++ rest).Perm front := by
    rw [split]
    exact (List.reverse_perm batch).symm.append_right rest
  rw [← pairedDays_self, taken, pairedDays_cons late early rfl, pairedDays_cons late early perm.length_eq.symm]
  exact totals_insertDays_perm (perm.map _) result

/-- A longer batch leaves the newest block's metrics out of its day. -/
theorem totals_of_long {newer : List BlockHeaderWithNumber} (aligned : 86400 ∣ start)
    (distinct : ((front ++ r :: back).map (·.header.hash)).Nodup) (late : ∀ x ∈ front, start ≤ x.time)
    (early : r.time < start) (member : b ∈ front) (batchIs : batch = newer.reverse ++ [b])
    (fresh : b.header.hash ∉ newer.map (·.header.hash)) (long : front.length < batch.length) :
    Stats.totals (insertDays p f (pairedDays (indicator b.header.hash) start (front ++ r :: back)
        (owners batch (front ++ r :: back))) .default) ≠
      Stats.totals (insertDays p f (closedDays (indicator b.header.hash) start (front ++ r :: back)) .default) := by
  intro same
  obtain ⟨stats, entered⟩ := exists_insertDays_indicator (p := p) f b.header.hash start .default distinct
  rw [totals_eq_ok.mpr ⟨stats, entered, rfl⟩] at same
  obtain ⟨stats', entered', maps⟩ := totals_eq_ok.mp same
  obtain ⟨taken, takenBack, split, length, within⟩ := owners_of_long (r :: back) batchIs long
  have whole := length_owners batch (front ++ r :: back)
  rw [split, List.length_append, List.length_append, length, List.length_cons] at whole
  obtain ⟨o, takenBack, rfl⟩ := List.exists_cons_of_length_pos (l := takenBack) (by omega)
  have keys := pairedDays_cutoffs_nodup (indicator b.header.hash : Hash → BlockMetrics F) aligned (front ++ r :: back)
  rw [← pairedDays_self] at entered
  have first := keys (front ++ r :: back)
  have second := keys (owners batch (front ++ r :: back))
  rw [pairedDays_cons late early rfl] at first entered
  rw [split, pairedDays_cons late early length.symm] at second entered'
  obtain ⟨v, atDay, total⟩ := insertDays_volume first entered List.mem_cons_self
  obtain ⟨v', atDay', total'⟩ := insertDays_volume second entered' List.mem_cons_self
  -- The newest block counts once for its day without the cache and not at all with it.
  have inFront : (front.map (·.header.hash)).Nodup := ((List.sublist_append_left _ _).map _).nodup distinct
  have missing : (volumes (metricsOf (indicator b.header.hash : Hash → BlockMetrics F) taken)).sum = 0 := by
    rw [sum_volumes_indicator, List.count_eq_zero]
    exact fun inTaken => fresh (List.map_subset _ within inTaken)
  rw [sum_indicator _ inFront, if_pos (List.mem_map_of_mem member), Outcome.ok.injEq] at total
  rw [Profile.sum_of_lt (by rw [missing]; decide), missing, Outcome.ok.injEq] at total'
  have volume : stats'.volume = stats.volume := congrArg Prod.fst maps
  rw [volume, atDay, ← total, ← total'] at atDay'
  cases atDay'

/-- The newest block of the list is before the first one that is early. -/
theorem mem_of_newest (head : ∃ more, front ++ r :: back = b :: more) (early : r.time < start) (newest : start ≤ b.time) :
    b ∈ front := by
  obtain ⟨more, head⟩ := head
  cases front with
  | nil =>
    rw [List.nil_append, List.cons.injEq] at head
    rw [head.1] at early
    exact absurd early (Nat.not_lt.mpr newest)
  | cons x front =>
    rw [List.cons_append, List.cons.injEq] at head
    exact head.1 ▸ List.mem_cons_self

/-- A batch without an early block ends before the first one. -/
theorem short_of_today (within : front ++ r :: back <+: batch.reverse ++ older) (early : r.time < start)
    (today : ∀ x ∈ batch, start ≤ x.time) : batch.length ≤ front.length := by
  by_contra long
  have first : front ++ [r] <+: front ++ r :: back := ⟨back, by simp⟩
  have inBatch : front ++ [r] <+: batch.reverse :=
    List.prefix_of_prefix_length_le (first.trans within) (List.prefix_append _ _) (by simp; omega)
  have atR := today r (List.mem_reverse.mp (inBatch.subset (by simp)))
  exact absurd early (Nat.not_lt.mpr atR)

theorem today_of_short (within : front ++ r :: back <+: batch.reverse ++ older) (short : batch.length ≤ front.length)
    (late : ∀ x ∈ front, start ≤ x.time) : ∀ x ∈ batch, start ≤ x.time := by
  obtain ⟨others, rfl, _⟩ := owners_of_short within short
  exact fun x inBatch => late x (List.mem_append_left _ (List.mem_reverse.mpr inBatch))

/-- Where the maps agree for the metrics that count the newest block alone, the batch ends before
the first early block. -/
theorem short_of_agree {list : List BlockHeaderWithNumber} (split : batch.reverse ++ older = b :: list)
    (hashes : ((b :: list).map (·.header.hash)).Nodup) (aligned : 86400 ∣ start)
    (distinct : ((front ++ r :: back).map (·.header.hash)).Nodup) (late : ∀ x ∈ front, start ≤ x.time)
    (early : r.time < start) (member : b ∈ front)
    (agree : Stats.totals (insertDays p f (pairedDays (indicator b.header.hash) start (front ++ r :: back)
        (owners batch (front ++ r :: back))) .default) =
      Stats.totals (insertDays p f (closedDays (indicator b.header.hash) start (front ++ r :: back)) .default)) :
    batch.length ≤ front.length := by
  by_contra long
  rw [Nat.not_le] at long
  cases newest : batch.reverse with
  | nil =>
    rw [List.reverse_eq_nil_iff.mp newest] at long
    exact Nat.not_lt_zero _ long
  | cons b' newer =>
    rw [newest, List.cons_append, List.cons.injEq] at split
    obtain ⟨rfl, rfl⟩ := split
    rw [List.map_cons, List.nodup_cons, List.map_append] at hashes
    have fresh : b'.header.hash ∉ newer.map (·.header.hash) := fun again => hashes.1 (List.mem_append_left _ again)
    have batchIs : batch = newer.reverse ++ [b'] := by
      rw [← List.reverse_reverse batch, newest, List.reverse_cons]
    exact totals_of_long aligned distinct late early member batchIs fresh long agree

end Boundary

/-- The statistics with and without the metrics of the newest blocks as a cache agree on all metrics
if and only if these blocks are all of the newest one's day or no relevant block is before it. -/
theorem cachedStats_iff (ancestry : c.Ancestry top (batch.reverse ++ older)) :
    (∀ (findBlockMetrics : Hash → Option (BlockMetrics F)) metrics,
        (∀ b ∈ relevantBlocks p (batch.reverse ++ older),
          findBlockMetrics b.header.hash = some (metrics b.header.hash)) →
          Stats.totals (calculateStats p f c findBlockMetrics top (some (metricsOf metrics batch))) =
            Stats.totals (calculateStats p f c findBlockMetrics top none)) ↔
      (∀ b ∈ batch, midnight (batch.reverse ++ older) ≤ b.time) ∨
        ∀ b ∈ relevantBlocks p (batch.reverse ++ older), midnight (batch.reverse ++ older) ≤ b.time := by
  have within := relevantBlocks_isPrefix p (batch.reverse ++ older)
  have hashes := ancestry.hashes_nodup
  obtain ⟨b, rest, split⟩ := ancestry.exists_cons
  rw [split] at ancestry hashes ⊢
  cases window : p.sub 32 b.time (86400 * 15) with
  | err => exact absurd window Profile.sub_ne_err
  | fault =>
    have none : relevantBlocks p (b :: rest) = [] := by rw [relevantBlocks, window]
    refine iff_of_true (fun findBlockMetrics metrics _ => ?_) (Or.inr (by simp [none]))
    rw [ancestry.calculateStats_of_fault window, ancestry.calculateStats_of_fault window]
  | ok cutoff =>
    have head := head_relevantBlocks rest window
    have cached (findBlockMetrics : Hash → Option (BlockMetrics F)) (metrics : Hash → BlockMetrics F)
        (found : ∀ x ∈ relevantBlocks p (b :: rest), findBlockMetrics x.header.hash = some (metrics x.header.hash)) :=
      ancestry.calculateStats_some (f := f) window found batch
    have fetched (findBlockMetrics : Hash → Option (BlockMetrics F)) (metrics : Hash → BlockMetrics F)
        (found : ∀ x ∈ relevantBlocks p (b :: rest), findBlockMetrics x.header.hash = some (metrics x.header.hash)) :=
      ancestry.calculateStats_none (f := f) window found
    have distinct : ((relevantBlocks p (b :: rest)).map (·.header.hash)).Nodup :=
      ((relevantBlocks_isPrefix p _).sublist.map _).nodup hashes
    rw [split] at within
    generalize relevantBlocks p (b :: rest) = relevant at *
    cases boundary : relevant.find? fun x => x.time < midnight (b :: rest) with
    | none =>
      have late : ∀ x ∈ relevant, midnight (b :: rest) ≤ x.time := by simpa using boundary
      refine iff_of_true (fun findBlockMetrics metrics found => ?_) (Or.inr late)
      rw [cached _ _ found, fetched _ _ found, ← pairedDays_self, pairedDays_of_late late, pairedDays_of_late late]
    | some r =>
      obtain ⟨early, front, back, rfl, late⟩ := List.find?_eq_some_iff_append.mp boundary
      replace early : r.time < midnight (b :: rest) := by simpa using early
      replace late : ∀ x ∈ front, midnight (b :: rest) ≤ x.time := by simpa using late
      have member := mem_of_newest ⟨_, head⟩ early (midnight_le b rest)
      constructor
      · intro agree
        have same := agree (fun hash => some (indicator b.header.hash hash)) _ fun _ _ => rfl
        rw [cached _ _ fun _ _ => rfl, fetched _ _ fun _ _ => rfl] at same
        have short := short_of_agree split hashes (midnight_dvd _) distinct late early member same
        exact Or.inl (today_of_short (split ▸ within) short late)
      · rintro (today | noneEarly)
        · intro findBlockMetrics metrics found
          have short := short_of_today (split ▸ within) early today
          rw [cached _ _ found, fetched _ _ found]
          exact totals_of_short (split ▸ within) short late early .default
        · exact absurd early (Nat.not_lt.mpr (noneEarly r (by simp)))

/-- The two newest blocks, oldest first. -/
def gapBatch : List BlockHeaderWithNumber :=
  [datedBlock 1 (ByteArr.fill 32 1) 1555300, datedBlock 2 (ByteArr.fill 32 2) 1771200]

theorem cachedStats_iff_gap :
    (∀ (findBlockMetrics : Hash → Option (BlockMetrics ℚ)) metrics,
        (∀ b ∈ relevantBlocks .dev (gapBatch.reverse ++ [datedBlock 0 emptyHash 1468805]),
          findBlockMetrics b.header.hash = some (metrics b.header.hash)) →
          Stats.totals (calculateStats .dev rationals (chainOfBlocks gapBlocks) findBlockMetrics (ByteArr.fill 32 3)
              (some (metricsOf metrics gapBatch))) =
            Stats.totals (calculateStats .dev rationals (chainOfBlocks gapBlocks) findBlockMetrics (ByteArr.fill 32 3)
              none)) ↔
      (∀ b ∈ gapBatch, midnight (gapBatch.reverse ++ [datedBlock 0 emptyHash 1468805]) ≤ b.time) ∨
        ∀ b ∈ relevantBlocks .dev (gapBatch.reverse ++ [datedBlock 0 emptyHash 1468805]),
          midnight (gapBatch.reverse ++ [datedBlock 0 emptyHash 1468805]) ≤ b.time :=
  cachedStats_iff (datedBlocks_ancestry 1468805 1555300 1771200)

/-- The newest block has a volume of one. -/
def gapMetrics : Hash → BlockMetrics ℚ := indicator (ByteArr.fill 32 3)

def gapRows (hash : Hash) : Option (BlockMetrics ℚ) := some (gapMetrics hash)

/-- With a block of an earlier day in the batch, that block's metrics are entered for the newest
one's day. -/
theorem cachedStats_fails :
    (chainOfBlocks gapBlocks).Ancestry (ByteArr.fill 32 3) (gapBatch.reverse ++ [datedBlock 0 emptyHash 1468805]) ∧
      (∀ b ∈ relevantBlocks .dev (gapBatch.reverse ++ [datedBlock 0 emptyHash 1468805]),
        gapRows b.header.hash = some (gapMetrics b.header.hash)) ∧
      Stats.totals (calculateStats .dev rationals (chainOfBlocks gapBlocks) gapRows (ByteArr.fill 32 3)
          (some (metricsOf gapMetrics gapBatch))) ≠
        Stats.totals (calculateStats .dev rationals (chainOfBlocks gapBlocks) gapRows (ByteArr.fill 32 3) none) := by
  have ancestry := datedBlocks_ancestry 1468805 1555300 1771200
  have found : ∀ b ∈ relevantBlocks .dev (datedBlocks 1468805 1555300 1771200),
      gapRows b.header.hash = some (gapMetrics b.header.hash) := fun _ _ => rfl
  refine ⟨ancestry, found, ?_⟩
  have window : Profile.dev.sub 32 (datedBlock 2 (ByteArr.fill 32 2) 1771200).time (86400 * 15) = .ok 475200 := rfl
  have cached := ancestry.calculateStats_some (f := rationals) window found gapBatch
  have fetched := ancestry.calculateStats_none (f := rationals) window found
  have relevant : relevantBlocks .dev (datedBlocks 1468805 1555300 1771200) =
      [datedBlock 2 (ByteArr.fill 32 2) 1771200] ++ datedBlock 1 (ByteArr.fill 32 1) 1555300 ::
        [datedBlock 0 emptyHash 1468805] := by decide +kernel
  rw [datedBlocks] at relevant
  rw [relevant] at cached fetched
  have distinct : (([datedBlock 2 (ByteArr.fill 32 2) 1771200] ++ datedBlock 1 (ByteArr.fill 32 1) 1555300 ::
      [datedBlock 0 emptyHash 1468805]).map (·.header.hash)).Nodup := by decide
  have late : ∀ x ∈ [datedBlock 2 (ByteArr.fill 32 2) 1771200], midnight gapBlocks ≤ x.time := by decide +kernel
  have early : (datedBlock 1 (ByteArr.fill 32 1) 1555300).time < midnight gapBlocks := by decide +kernel
  have fresh : (datedBlock 2 (ByteArr.fill 32 2) 1771200).header.hash ∉
      [datedBlock 1 (ByteArr.fill 32 1) 1555300].map (·.header.hash) := by decide
  have batchIs : gapBatch = [datedBlock 1 (ByteArr.fill 32 1) 1555300].reverse ++
      [datedBlock 2 (ByteArr.fill 32 2) 1771200] := rfl
  have differs := totals_of_long (p := .dev) (f := rationals) (midnight_dvd gapBlocks) distinct late early
    (List.mem_singleton_self _) batchIs fresh (by decide)
  exact fun same => differs ((congrArg _ cached).symm.trans (same.trans (congrArg _ fetched)))

end Bitlens

import Bitlens.Ancestry
import Bitlens.Lib.MovingCutoff
import Bitlens.Lib.Sums

namespace Bitlens
open Lib

/-- The timestamp of a block's header, a `u32`. -/
def BlockHeaderWithNumber.time (b : BlockHeaderWithNumber) : Nat := b.header.timestamp.toNat

/-- `BlockMetrics`, the fields that the statistics read. -/
structure BlockMetrics (F : Type) where
  volume : UInt64
  txsCount : UInt64
  medianFeeRate : F

structure Stats (F : Type) where
  averageMedianFees : Nat → Option F
  transactions : Nat → Option Nat
  volume : Nat → Option Nat

/-- `Stats::default`. -/
def Stats.default {F : Type} : Stats F := ⟨fun _ => none, fun _ => none, fun _ => none⟩

/-- The `f64` operations of `calculate_stats`; the divisor is an integer cast to `f64`. -/
structure Floats (F : Type) where
  add : F → F → F
  div : F → Nat → F

variable {F : Type} [Zero F]

/-- The loop over the chain: the hashes and timestamps of the blocks from `last` back to the first
one before the cutoff. -/
def Chain.relevantBlocksLoop (c : Chain) (cutoff : Nat) :
    Nat → BlockHeaderWithNumber → List (Hash × Nat) → Outcome (List (Hash × Nat))
  | 0, _, _ => .fault
  | fuel + 1, last, relevantBlocks =>
    let relevantBlocks := relevantBlocks ++ [(last.header.hash, last.time)]
    if last.header.parent = emptyHash then .ok relevantBlocks
    else do
      let last ← Outcome.unwrap (c.knownHeaders last.header.parent)
      if last.time < cutoff then .ok relevantBlocks
      else c.relevantBlocksLoop cutoff fuel last relevantBlocks

/-- The loop over `bms[boundary..i]`. -/
def sumDay (p : Profile) (f : Floats F) :
    Nat → Nat → F → List (BlockMetrics F) → Outcome (Nat × Nat × F)
  | totalVol, totalTxs, medianFeesSum, [] => .ok (totalVol, totalTxs, medianFeesSum)
  | totalVol, totalTxs, medianFeesSum, bm :: bms => do
    let totalVol ← p.add 64 totalVol bm.volume.toNat
    let totalTxs ← p.add 64 totalTxs bm.txsCount.toNat
    sumDay p f totalVol totalTxs (f.add medianFeesSum bm.medianFeeRate) bms

/-- What the grouping loop enters into the maps for the blocks of one day. -/
def insertDay (p : Profile) (f : Floats F) (cutoff : Nat) (day : List (BlockMetrics F)) (result : Stats F) :
    Outcome (Stats F) := do
  let (totalVol, totalTxs, medianFeesSum) ← sumDay p f 0 0 0 day
  pure {
    averageMedianFees := mapInsert result.averageMedianFees cutoff (f.div medianFeesSum day.length)
    transactions := mapInsert result.transactions cutoff totalTxs
    volume := mapInsert result.volume cutoff totalVol }

/-- The grouping loop over the timestamps and the metrics; `day` is `bms[boundary..i]`. -/
def groupDays (p : Profile) (f : Floats F) :
    Nat → List (BlockMetrics F) → List (Nat × BlockMetrics F) → Stats F → Outcome (Stats F)
  | _, _, [], result => .ok result
  | cutoff, day, (timestamp, bm) :: rest, result =>
    if timestamp < cutoff then do
      let result ← insertDay p f cutoff day result
      let cutoff ← p.sub 32 cutoff 86400
      groupDays p f cutoff [bm] rest result
    else groupDays p f cutoff (day ++ [bm]) rest result

/-- `calculate_stats`. The heights fall, so that of the top bounds the loop over the chain; a block
without a row in sqlite fails the task that looks it up, and `await?` returns that as an error. -/
def calculateStats (p : Profile) (f : Floats F) (c : Chain) (findBlockMetrics : Hash → Option (BlockMetrics F))
    (top : Hash) (cache : Option (List (BlockMetrics F))) : Outcome (Stats F) := do
  let topHeader ← Outcome.unwrap (c.knownHeaders top)
  let now := topHeader.time
  let cutoff ← p.sub 32 now (86400 * 15)
  let relevantBlocks ← c.relevantBlocksLoop cutoff (topHeader.number + 1) topHeader []
  -- The cache is read by position from the newest relevant block on, up to its end.
  let cached := (cache.getD []).take relevantBlocks.length
  let results ← Outcome.mapM (fun block => Outcome.orErr (findBlockMetrics block.1))
    (relevantBlocks.drop cached.length)
  groupDays p f (now - now % 86400) [] ((relevantBlocks.map (·.2)).zip (cached ++ results)) Stats.default

section Grouping

variable {p : Profile} {f : Floats F} {vol txs cutoff d : Nat} {fees : F} {day : List (BlockMetrics F)}
  {bms : List (BlockMetrics F)} {stats result : Stats F}

def volumes (bms : List (BlockMetrics F)) : List Nat := bms.map (·.volume.toNat)

def txsCounts (bms : List (BlockMetrics F)) : List Nat := bms.map (·.txsCount.toNat)

omit [Zero F] in
/-- A day's totals are the sums of its volumes and counts. -/
theorem sumDay_eq (volBound : vol < 2 ^ 64) (txsBound : txs < 2 ^ 64) :
    sumDay p f vol txs fees bms = (do
      let totalVol ← p.sum 64 (vol :: volumes bms)
      let totalTxs ← p.sum 64 (txs :: txsCounts bms)
      pure (totalVol, totalTxs, bms.foldl (fun sum bm => f.add sum bm.medianFeeRate) fees)) := by
  induction bms generalizing vol txs fees with
  | nil =>
    have atVol : p.sum 64 [vol] = .ok vol := Profile.sum_of_lt (by simpa using volBound)
    have atTxs : p.sum 64 [txs] = .ok txs := Profile.sum_of_lt (by simpa using txsBound)
    simp [sumDay, volumes, txsCounts, atVol, atTxs]
  | cons bm bms ih =>
    rw [volumes, txsCounts, List.map_cons, List.map_cons, sumDay]
    cases atVol : p.add 64 vol bm.volume.toNat with
    | err => exact absurd atVol Profile.add_ne_err
    | fault =>
      rw [Profile.sum_cons_of_add_fault atVol]
      rfl
    | ok vol' =>
      rw [← Profile.sum_cons_of_add atVol, Outcome.ok_bind]
      cases atTxs : p.add 64 txs bm.txsCount.toNat with
      | err => exact absurd atTxs Profile.add_ne_err
      | fault =>
        rw [Profile.sum_cons_of_add_fault atTxs]
        cases total : p.sum 64 (vol' :: bms.map (·.volume.toNat)) with
        | err => exact absurd total Profile.sum_ne_err
        | ok => rfl
        | fault => rfl
      | ok txs' =>
        rw [← Profile.sum_cons_of_add atTxs, Outcome.ok_bind, ih (Profile.lt_of_add atVol) (Profile.lt_of_add atTxs)]
        rfl

/-- What the grouping loop enters for a list of days. -/
def insertDays (p : Profile) (f : Floats F) : List (Nat × List (BlockMetrics F)) → Stats F → Outcome (Stats F)
  | [], result => .ok result
  | day :: days, result => do
    let result ← insertDay p f day.1 day.2 result
    insertDays p f days result

/-- The grouping loop enters the runs that the cutoff closes. -/
theorem groupDays_eq {rows : List (Nat × BlockMetrics F)} {run : List (Nat × BlockMetrics F)}
    (aligned : 86400 ∣ cutoff) : groupDays p f cutoff (run.map (·.2)) rows result =
      insertDays p f ((closedRuns (·.1) 86400 cutoff run rows).map fun closed => (closed.1, closed.2.map (·.2)))
        result := by
  induction rows generalizing cutoff run result with
  | nil => rfl
  | cons row rows ih =>
    obtain ⟨timestamp, bm⟩ := row
    rw [groupDays, closedRuns]
    by_cases early : timestamp < cutoff
    · obtain ⟨next, _, room⟩ := lower_cutoff (j := 0) aligned rfl early
      rw [if_pos early, if_pos early, List.map_cons, insertDays, Profile.sub_of_le room]
      congr 1
      funext result
      have later : groupDays p f (cutoff - 86400) ([(timestamp, bm)].map (·.2)) rows result = _ := ih next
      exact later
    · rw [if_neg early, if_neg early, ← ih aligned, List.map_append]
      rfl

theorem groupDays_map {α : Type} (aligned : 86400 ∣ cutoff) (g : α → Nat × BlockMetrics F) (xs : List α) :
    groupDays p f cutoff [] (xs.map g) result =
      insertDays p f ((closedRuns (fun x => (g x).1) 86400 cutoff [] xs).map fun closed =>
        (closed.1, closed.2.map fun x => (g x).2)) result := by
  have grouped : groupDays p f cutoff (([] : List (Nat × BlockMetrics F)).map (·.2)) (xs.map g) result = _ :=
    groupDays_eq aligned
  rw [List.map_nil, closedRuns_map_nil, List.map_map] at grouped
  rw [grouped]
  simp [Function.comp_def]

theorem insertDay_eq_ok : insertDay p f cutoff day result = .ok stats ↔
    ∃ totalVol totalTxs, p.sum 64 (volumes day) = .ok totalVol ∧ p.sum 64 (txsCounts day) = .ok totalTxs ∧
      stats = {
        averageMedianFees := mapInsert result.averageMedianFees cutoff
          (f.div (day.foldl (fun sum bm => f.add sum bm.medianFeeRate) 0) day.length)
        transactions := mapInsert result.transactions cutoff totalTxs
        volume := mapInsert result.volume cutoff totalVol } := by
  have zero : 0 < 2 ^ 64 := Nat.two_pow_pos 64
  rw [insertDay, sumDay_eq zero zero, Profile.sum_zero_cons, Profile.sum_zero_cons]
  constructor
  · intro entered
    obtain ⟨totals, summed, entered⟩ := Outcome.bind_eq_ok.mp entered
    obtain ⟨totalVol, volume, summed⟩ := Outcome.bind_eq_ok.mp summed
    obtain ⟨totalTxs, transactions, summed⟩ := Outcome.bind_eq_ok.mp summed
    cases summed
    cases entered
    exact ⟨totalVol, totalTxs, volume, transactions, rfl⟩
  · rintro ⟨totalVol, totalTxs, volume, transactions, rfl⟩
    rw [volume, transactions]
    rfl

theorem insertDays_ne_err {days : List (Nat × List (BlockMetrics F))} : insertDays p f days result ≠ .err := by
  have zero : 0 < 2 ^ 64 := Nat.two_pow_pos 64
  induction days generalizing result with
  | nil => simp [insertDays]
  | cons day days ih =>
    rw [insertDays, insertDay, sumDay_eq zero zero]
    cases atVol : p.sum 64 (0 :: volumes day.2) with
    | err => exact absurd atVol Profile.sum_ne_err
    | fault => simp
    | ok =>
      cases atTxs : p.sum 64 (0 :: txsCounts day.2) with
      | err => exact absurd atTxs Profile.sum_ne_err
      | fault => simp
      | ok => simpa using ih

/-- The loop gets through where the totals of every day do. -/
theorem exists_insertDays {days : List (Nat × List (BlockMetrics F))} :
    (∃ stats, insertDays p f days result = .ok stats) ↔
    ∀ day ∈ days, (∃ v, p.sum 64 (volumes day.2) = .ok v) ∧ ∃ t, p.sum 64 (txsCounts day.2) = .ok t := by
  induction days generalizing result with
  | nil => simp [insertDays]
  | cons day days ih =>
    rw [insertDays, List.forall_mem_cons]
    constructor
    · rintro ⟨stats, entered⟩
      obtain ⟨first, atDay, rest⟩ := Outcome.bind_eq_ok.mp entered
      obtain ⟨v, t, volume, transactions, _⟩ := insertDay_eq_ok.mp atDay
      exact ⟨⟨⟨v, volume⟩, t, transactions⟩, ih.mp ⟨stats, rest⟩⟩
    · rintro ⟨⟨⟨v, volume⟩, t, transactions⟩, rest⟩
      obtain ⟨stats, entered⟩ := ih.mpr rest
      exact ⟨stats, Outcome.bind_eq_ok.mpr ⟨_, insertDay_eq_ok.mpr ⟨v, t, volume, transactions, rfl⟩, entered⟩⟩

/-- Every total found in the maps is the sum over a day with that key, or was there before. -/
theorem insertDays_origin {days : List (Nat × List (BlockMetrics F))}
    (entered : insertDays p f days result = .ok stats) :
    (∀ v, stats.volume d = some v →
        (∃ day ∈ days, day.1 = d ∧ p.sum 64 (volumes day.2) = .ok v) ∨ result.volume d = some v) ∧
      ∀ t, stats.transactions d = some t →
        (∃ day ∈ days, day.1 = d ∧ p.sum 64 (txsCounts day.2) = .ok t) ∨ result.transactions d = some t := by
  induction days generalizing result with
  | nil =>
    cases entered
    exact ⟨fun _ found => Or.inr found, fun _ found => Or.inr found⟩
  | cons day days ih =>
    obtain ⟨first, atDay, rest⟩ := Outcome.bind_eq_ok.mp entered
    obtain ⟨v, t, volume, transactions, rfl⟩ := insertDay_eq_ok.mp atDay
    obtain ⟨volumes, counts⟩ := ih rest
    constructor
    · intro w found
      rcases volumes w found with ⟨other, member, atKey, total⟩ | before
      · exact Or.inl ⟨other, List.mem_cons_of_mem _ member, atKey, total⟩
      · rcases mapInsert_origin before with ⟨rfl, rfl⟩ | earlier
        · exact Or.inl ⟨day, List.mem_cons_self, rfl, volume⟩
        · exact Or.inr earlier
    · intro w found
      rcases counts w found with ⟨other, member, atKey, total⟩ | before
      · exact Or.inl ⟨other, List.mem_cons_of_mem _ member, atKey, total⟩
      · rcases mapInsert_origin before with ⟨rfl, rfl⟩ | earlier
        · exact Or.inl ⟨day, List.mem_cons_self, rfl, transactions⟩
        · exact Or.inr earlier

/-- Every day has its key in the maps. -/
theorem insertDays_isSome {days : List (Nat × List (BlockMetrics F))}
    (entered : insertDays p f days result = .ok stats)
    (present : (∃ day ∈ days, day.1 = d) ∨ (result.volume d).isSome) : (stats.volume d).isSome := by
  induction days generalizing result with
  | nil =>
    cases entered
    exact present.resolve_left (by simp)
  | cons day days ih =>
    obtain ⟨first, atDay, rest⟩ := Outcome.bind_eq_ok.mp entered
    obtain ⟨v, t, _, _, rfl⟩ := insertDay_eq_ok.mp atDay
    refine ih rest ?_
    rcases present with ⟨other, member, atKey⟩ | before
    · rcases List.mem_cons.mp member with rfl | later
      · exact Or.inr (mapInsert_isSome_of (Or.inl atKey.symm))
      · exact Or.inl ⟨other, later, atKey⟩
    · exact Or.inr (mapInsert_isSome_of (Or.inr before))

/-- Where no two days have the same key, the volume under a day's key is its total. -/
theorem insertDays_volume {days : List (Nat × List (BlockMetrics F))} (distinct : (days.map (·.1)).Nodup)
    (entered : insertDays p f days .default = .ok stats) (member : (d, day) ∈ days) :
    ∃ v, stats.volume d = some v ∧ p.sum 64 (volumes day) = .ok v := by
  obtain ⟨v, found⟩ := Option.isSome_iff_exists.mp (insertDays_isSome entered (Or.inl ⟨_, member, rfl⟩))
  rcases (insertDays_origin entered).1 v found with ⟨other, inDays, atKey, total⟩ | before
  · have same : other = (d, day) := List.inj_on_of_nodup_map distinct inDays member atKey
    rw [same] at total
    exact ⟨v, found, total⟩
  · cases before

/-- The divisor of every average is a number of blocks, so a division by zero is never asked for. -/
theorem insertDays_div {div : F → Nat → F} {days : List (Nat × List (BlockMetrics F))}
    (some : ∀ day ∈ days, day.2 ≠ []) (same : ∀ x n, n ≠ 0 → f.div x n = div x n) :
    insertDays p f days result = insertDays p { f with div := div } days result := by
  have sumSame (v t : Nat) (fees : F) (bms : List (BlockMetrics F)) :
      sumDay p { f with div := div } v t fees bms = sumDay p f v t fees bms := by
    induction bms generalizing v t fees with
    | nil => rfl
    | cons bm bms ih => simp only [sumDay, ih]
  induction days generalizing result with
  | nil => rfl
  | cons day days ih =>
    have length : day.2.length ≠ 0 := fun none => some day List.mem_cons_self (List.length_eq_zero_iff.mp none)
    have first : insertDay p f day.1 day.2 result = insertDay p { f with div := div } day.1 day.2 result := by
      simp only [insertDay, sumSame, same _ _ length]
    rw [insertDays, insertDays, first]
    congr 1
    funext result
    exact ih fun day member => some day (List.mem_cons_of_mem _ member)

end Grouping

/-- The headers of a branch, newest first, that `calculate_stats` collects. -/
def relevantBlocks (p : Profile) : List BlockHeaderWithNumber → List BlockHeaderWithNumber
  | [] => []
  | top :: older =>
    match p.sub 32 top.time (86400 * 15) with
    | .ok cutoff => top :: older.takeWhile fun b => cutoff ≤ b.time
    | _ => []

/-- The midnight before the newest block. -/
def midnight (blocks : List BlockHeaderWithNumber) : Nat :=
  let now := (blocks.head?.map (·.time)).getD 0
  now - now % 86400

section Walk

variable {p : Profile} {f : Floats F} {c : Chain} {hash top : Hash} {b : BlockHeaderWithNumber}
  {blocks older : List BlockHeaderWithNumber} {cutoff : Nat} {findBlockMetrics : Hash → Option (BlockMetrics F)}
  {cache : Option (List (BlockMetrics F))} {metrics : BlockHeaderWithNumber → BlockMetrics F}

theorem midnight_dvd (blocks : List BlockHeaderWithNumber) : 86400 ∣ midnight blocks := Nat.dvd_sub_mod _

theorem midnight_le (b : BlockHeaderWithNumber) (older : List BlockHeaderWithNumber) : midnight (b :: older) ≤ b.time :=
  Nat.sub_le _ _

theorem relevantBlocks_isPrefix (p : Profile) (blocks : List BlockHeaderWithNumber) :
    relevantBlocks p blocks <+: blocks := by
  cases blocks with
  | nil => exact List.nil_prefix
  | cons b older =>
    rw [relevantBlocks]
    split
    · exact List.cons_prefix_cons.mpr ⟨rfl, List.takeWhile_prefix _⟩
    · exact List.nil_prefix

/-- The loop over the chain collects the headers up to the first one before the cutoff. -/
theorem Chain.Ancestry.relevantBlocksLoop (ancestry : c.Ancestry hash (b :: older)) {fuel : Nat}
    (enough : older.length < fuel) (acc : List (Hash × Nat)) :
    c.relevantBlocksLoop cutoff fuel b acc =
      .ok (acc ++ (b :: older.takeWhile fun b => cutoff ≤ b.time).map fun b => (b.header.hash, b.time)) := by
  induction older generalizing hash b fuel acc with
  | nil =>
    obtain ⟨fuel, rfl⟩ := Nat.exists_eq_succ_of_ne_zero (Nat.ne_of_gt enough)
    cases ancestry with
    | root _ _ bottom =>
      rw [Chain.relevantBlocksLoop, if_pos bottom]
      rfl
    | child _ _ _ _ rest => cases rest
  | cons next older ih =>
    obtain ⟨fuel, rfl⟩ := Nat.exists_eq_succ_of_ne_zero (Nat.ne_of_gt (Nat.zero_lt_of_lt enough))
    cases ancestry with
    | child _ _ above _ rest =>
      rw [Chain.relevantBlocksLoop, if_neg above, rest.stored, Outcome.unwrap_some, Outcome.ok_bind]
      by_cases early : next.time < cutoff
      · have stops : ¬cutoff ≤ next.time := Nat.not_le.mpr early
        rw [if_pos early, List.takeWhile_cons_of_neg (by simpa using stops)]
        rfl
      · have goes : cutoff ≤ next.time := Nat.le_of_not_lt early
        rw [if_neg early, ih rest (Nat.lt_of_succ_lt_succ enough), List.takeWhile_cons_of_pos (by simpa using goes)]
        simp

/-- The statistics are not reached where the cutoff underflows. -/
theorem Chain.Ancestry.calculateStats_of_fault (ancestry : c.Ancestry top (b :: older))
    (underflows : p.sub 32 b.time (86400 * 15) = .fault) :
    calculateStats p f c findBlockMetrics top cache = .fault := by
  rw [calculateStats, ancestry.stored, Outcome.unwrap_some, Outcome.ok_bind]
  dsimp only
  rw [underflows]
  rfl

/-- The statistics are those of the relevant blocks, with the first of their metrics from the cache. -/
theorem Chain.Ancestry.calculateStats_of_ok (ancestry : c.Ancestry top (b :: older))
    (window : p.sub 32 b.time (86400 * 15) = .ok cutoff)
    (found : ∀ x ∈ relevantBlocks p (b :: older), findBlockMetrics x.header.hash = some (metrics x))
    (cache : Option (List (BlockMetrics F))) :
    let relevant := relevantBlocks p (b :: older)
    let cached := (cache.getD []).take relevant.length
    calculateStats p f c findBlockMetrics top cache =
      groupDays p f (midnight (b :: older)) []
        ((relevant.map (·.time)).zip (cached ++ (relevant.drop cached.length).map metrics)) Stats.default := by
  have collected : relevantBlocks p (b :: older) = b :: older.takeWhile fun b => cutoff ≤ b.time := by
    rw [relevantBlocks, window]
  intro relevant cached
  have fetched : Outcome.mapM (fun block => Outcome.orErr (findBlockMetrics block.1))
      ((relevant.map fun b => (b.header.hash, b.time)).drop cached.length) =
        .ok ((relevant.drop cached.length).map metrics) := by
    rw [← List.map_drop]
    exact Outcome.mapM_eq_ok fun x member => by rw [found x (List.mem_of_mem_drop member), Outcome.orErr_some]
  have walk : c.relevantBlocksLoop cutoff (b.number + 1) b [] =
      .ok (relevant.map fun b => (b.header.hash, b.time)) := by
    rw [ancestry.number, ancestry.relevantBlocksLoop (Nat.lt_succ_self _) [], List.nil_append, ← collected]
  rw [calculateStats, ancestry.stored, Outcome.unwrap_some, Outcome.ok_bind]
  dsimp only
  rw [window, Outcome.ok_bind, walk, Outcome.ok_bind, List.length_map, fetched, Outcome.ok_bind, List.map_map]
  rfl

end Walk

section Pairs

variable {p : Profile} {f : Floats F} {c : Chain} {top : Hash} {b : BlockHeaderWithNumber}
  {older : List BlockHeaderWithNumber} {cutoff : Nat} {findBlockMetrics : Hash → Option (BlockMetrics F)}
  {metrics : Hash → BlockMetrics F}

/-- The metrics of blocks. -/
def metricsOf (metrics : Hash → BlockMetrics F) (blocks : List BlockHeaderWithNumber) : List (BlockMetrics F) :=
  blocks.map fun b => metrics b.header.hash

/-- The runs of blocks that the grouping loop closes, with their metrics. -/
def closedDays (metrics : Hash → BlockMetrics F) (start : Nat) (blocks : List BlockHeaderWithNumber) :
    List (Nat × List (BlockMetrics F)) :=
  (closedRuns BlockHeaderWithNumber.time 86400 start [] blocks).map fun closed =>
    (closed.1, metricsOf metrics closed.2)

/-- The blocks whose metrics `calculate_stats` takes for the relevant ones: those of the cache by
position, then the relevant blocks behind its end. -/
def owners (batch relevant : List BlockHeaderWithNumber) : List BlockHeaderWithNumber :=
  batch.take relevant.length ++ relevant.drop batch.length

/-- The runs of the grouping loop with the metrics taken for them. -/
def pairedDays (metrics : Hash → BlockMetrics F) (start : Nat) (relevant owners : List BlockHeaderWithNumber) :
    List (Nat × List (BlockMetrics F)) :=
  (closedRuns (fun pair => pair.1.time) 86400 start [] (relevant.zip owners)).map fun closed =>
    (closed.1, metricsOf metrics (closed.2.map (·.2)))

theorem owners_nil (relevant : List BlockHeaderWithNumber) : owners [] relevant = relevant := by
  simp [owners]

theorem length_owners (batch relevant : List BlockHeaderWithNumber) :
    (owners batch relevant).length = relevant.length := by
  rw [owners, List.length_append, List.length_take, List.length_drop]
  omega

omit [Zero F] in
theorem pairedDays_self (metrics : Hash → BlockMetrics F) (start : Nat) (blocks : List BlockHeaderWithNumber) :
    pairedDays metrics start blocks blocks = closedDays metrics start blocks := by
  have pairs : blocks.zip blocks = blocks.map fun b => (b, b) := by
    simpa using List.zip_map' (l := blocks) (f := id) (g := id)
  rw [pairedDays, closedDays, pairs, closedRuns_map_nil, List.map_map]
  simp [Function.comp_def]

/-- With the metrics of a batch as the cache the statistics are those of the paired blocks. -/
theorem Chain.Ancestry.calculateStats_some (ancestry : c.Ancestry top (b :: older))
    (window : p.sub 32 b.time (86400 * 15) = .ok cutoff)
    (found : ∀ x ∈ relevantBlocks p (b :: older), findBlockMetrics x.header.hash = some (metrics x.header.hash))
    (batch : List BlockHeaderWithNumber) :
    calculateStats p f c findBlockMetrics top (some (metricsOf metrics batch)) =
      insertDays p f (pairedDays metrics (midnight (b :: older)) (relevantBlocks p (b :: older))
        (owners batch (relevantBlocks p (b :: older)))) .default := by
  have whole := ancestry.calculateStats_of_ok (f := f) window found (some (metricsOf metrics batch))
  generalize relevantBlocks p (b :: older) = relevant at whole ⊢
  have rows : (relevant.map (·.time)).zip ((metricsOf metrics batch).take relevant.length ++
      (relevant.drop ((metricsOf metrics batch).take relevant.length).length).map fun x => metrics x.header.hash) =
        (relevant.zip (owners batch relevant)).map fun pair => (pair.1.time, metrics pair.2.header.hash) := by
    have rest : relevant.drop ((metricsOf metrics batch).take relevant.length).length = relevant.drop batch.length := by
      rw [List.length_take, metricsOf, List.length_map]
      rcases Nat.le_total batch.length relevant.length with short | long
      · rw [Nat.min_eq_right short]
      · rw [Nat.min_eq_left long, List.drop_length, List.drop_eq_nil_of_le long]
    have paired : (metricsOf metrics batch).take relevant.length ++
        (relevant.drop batch.length).map (fun x => metrics x.header.hash) =
          (owners batch relevant).map fun x => metrics x.header.hash := by
      rw [owners, List.map_append, metricsOf, List.map_take]
    rw [rest, paired, List.zip_map]
    rfl
  dsimp only [Option.getD_some] at whole
  rw [whole, rows, groupDays_map (midnight_dvd _), pairedDays]
  simp [metricsOf, Function.comp_def]

/-- Without a cache they are those of the runs of relevant blocks. -/
theorem Chain.Ancestry.calculateStats_none (ancestry : c.Ancestry top (b :: older))
    (window : p.sub 32 b.time (86400 * 15) = .ok cutoff)
    (found : ∀ x ∈ relevantBlocks p (b :: older), findBlockMetrics x.header.hash = some (metrics x.header.hash)) :
    calculateStats p f c findBlockMetrics top none =
      insertDays p f (closedDays metrics (midnight (b :: older)) (relevantBlocks p (b :: older))) .default := by
  have empty : calculateStats p f c findBlockMetrics top none =
      calculateStats p f c findBlockMetrics top (some (metricsOf metrics [])) := rfl
  rw [empty, ancestry.calculateStats_some window found, owners_nil, pairedDays_self]

/-- The totals of the days fit a `u64`. -/
def DaysFit (days : List (Nat × List (BlockMetrics F))) : Prop :=
  ∀ day ∈ days, (volumes day.2).sum < 2 ^ 64 ∧ (txsCounts day.2).sum < 2 ^ 64

instance (days : List (Nat × List (BlockMetrics F))) : Decidable (DaysFit days) :=
  inferInstanceAs (Decidable (∀ day ∈ days, _))

/-- Entering the days succeeds or panics. -/
theorem insertDays_cases (p : Profile) (f : Floats F) (days : List (Nat × List (BlockMetrics F))) (result : Stats F) :
    ((∃ stats, insertDays p f days result = .ok stats) ∧ (p = .dev → DaysFit days)) ∨
      (insertDays p f days result = .fault ∧ ¬(p = .dev → DaysFit days)) := by
  have fits : (∃ stats, insertDays p f days result = .ok stats) ↔ (p = .dev → DaysFit days) := by
    simp only [exists_insertDays, Profile.exists_sum_iff, DaysFit]
    exact ⟨fun each dev day member => ⟨(each day member).1 dev, (each day member).2 dev⟩,
      fun each day member => ⟨fun dev => (each dev day member).1, fun dev => (each dev day member).2⟩⟩
  cases entered : insertDays p f days result with
  | ok stats => exact Or.inl ⟨⟨stats, rfl⟩, fits.mp ⟨stats, entered⟩⟩
  | fault => exact Or.inr ⟨rfl, fun fit => by simpa [entered] using fits.mpr fit⟩
  | err => exact absurd entered insertDays_ne_err

/-- Where every metric is found the statistics are returned or the call panics: a `dev` build panics
where the window of 15 days begins before the epoch or a day's totals do not fit. -/
theorem Chain.Ancestry.calculateStats_cases (ancestry : c.Ancestry top (b :: older))
    (found : ∀ x ∈ relevantBlocks p (b :: older), findBlockMetrics x.header.hash = some (metrics x.header.hash))
    (batch : List BlockHeaderWithNumber) :
    let returns := p = .dev → 86400 * 15 ≤ b.time ∧ DaysFit (pairedDays metrics (midnight (b :: older))
      (relevantBlocks p (b :: older)) (owners batch (relevantBlocks p (b :: older))))
    ((∃ stats, calculateStats p f c findBlockMetrics top (some (metricsOf metrics batch)) = .ok stats) ∧ returns) ∨
      (calculateStats p f c findBlockMetrics top (some (metricsOf metrics batch)) = .fault ∧ ¬returns) := by
  intro returns
  cases window : p.sub 32 b.time (86400 * 15) with
  | err => exact absurd window Profile.sub_ne_err
  | fault =>
    obtain ⟨dev, early⟩ := Profile.sub_eq_fault_iff.mp window
    exact Or.inr ⟨ancestry.calculateStats_of_fault window, fun returns => absurd (returns dev).1 (Nat.not_le.mpr early)⟩
  | ok cutoff =>
    have late : p = .dev → 86400 * 15 ≤ b.time := by
      rintro rfl
      exact (Profile.dev_sub_eq_ok.mp window).1
    rw [ancestry.calculateStats_some window found]
    rcases insertDays_cases p f _ .default with ⟨entered, fit⟩ | ⟨entered, unfit⟩
    · exact Or.inl ⟨entered, fun dev => ⟨late dev, fit dev⟩⟩
    · exact Or.inr ⟨entered, fun returns => unfit fun dev => (returns dev).2⟩

end Pairs

end Bitlens

import Sovereign.Database.Readers
import Sovereign.Lib.Sweep

/-!
# Dominance pruning

`DominancePrune` sweeps the batches of equal system time from the last to the first and keeps the intervals of the
survivors only.  On rows in the order of their system times it drops what the rule of the full scan drops
(`dominancePrune_eq_reference`); rows in the order of their keys are swept the same way, by the times in the keys.
`dominancePrune_eq_filter` says what comes out of it there: a row goes **iff** some row with a greater key time at
or below the horizon covers it, whether that row is kept or not — every row at or below the horizon is covered by a
kept one (`sweep_spec`).

The key time is the system time read without its sign, so a row before zero counts as later than all others: only
such rows can make pruning change an answer of `AsOf` at or above the horizon (`pruning_is_sound_iff`).
-/

namespace Sovereign.Database

open Lib Sync

/-! ### The sweep -/

section
variable {horizon : Int64} {rows : List Row} {r r' : Row} {a b : Int64} {hash : FixedBytes 16}

theorem coveredBy_iff : r.coveredBy r'.interval = true ↔
    r'.validTimeStart ≤ r.validTimeStart ∧ r.validTimeEnd ≤ r'.validTimeEnd := by
  rw [Row.coveredBy, Row.interval, Bool.and_eq_true_iff]
  exact and_congr decide_eq_true_iff decide_eq_true_iff

theorem coveredBy_trans {r'' : Row} (h : r.coveredBy r'.interval = true) (h' : r'.coveredBy r''.interval = true) :
    r.coveredBy r''.interval = true := by
  rw [coveredBy_iff] at *
  exact ⟨Int64.le_trans h'.1 h.1, Int64.le_trans h.2 h'.2⟩

/-- The sweep over rows, with the order of times that decides which of two rows is later. -/
def rowSweep (before : Int64 → Int64 → Bool) (asymm : ∀ {a b}, before a b = true → before b a = false)
    (horizon : Int64) : Sweep Row Int64 LiveInterval where
  time := fun r => r.systemTime
  before := before
  admits := fun t => t ≤ horizon
  span := Row.interval
  covered := Row.coveredBy
  before_asymm := asymm
  covered_self := fun _ => coveredBy_iff.mpr ⟨Int64.le_refl _, Int64.le_refl _⟩
  covered_trans := coveredBy_trans

theorem batch_rowSweep (before : Int64 → Int64 → Bool) (asymm : ∀ {a b}, before a b = true → before b a = false)
    (horizon : Int64) : (rowSweep before asymm horizon).batch = sweepBatch horizon := by
  funext b swept
  simp only [Sweep.batch, sweepBatch, rowSweep, decide_eq_true_eq]

/-- The order of the times in the keys. -/
def keyBefore (a b : Int64) : Bool := a.toUInt64 < b.toUInt64

theorem keyBefore_asymm (h : keyBefore a b = true) : keyBefore b a = false := by
  rw [keyBefore, decide_eq_true_iff] at h
  exact decide_eq_false fun hback => UInt64.lt_irrefl _ (UInt64.lt_trans h hback)

/-- The row is covered by one with a greater key time at or below the horizon. -/
def dominatedIn (rows : List Row) (horizon : Int64) (r : Row) : Bool :=
  (rowSweep keyBefore keyBefore_asymm horizon).dominated rows r

theorem dominatedIn_iff :
    dominatedIn rows horizon r = true ↔ ∃ d ∈ rows, r.systemTime.toUInt64 < d.systemTime.toUInt64 ∧
      d.systemTime ≤ horizon ∧ d.validTimeStart ≤ r.validTimeStart ∧ r.validTimeEnd ≤ d.validTimeEnd := by
  rw [dominatedIn, Sweep.dominated_iff]
  exact exists_congr fun d => and_congr_right fun _ =>
    and_congr decide_eq_true_iff (and_congr decide_eq_true_iff coveredBy_iff)

section
variable {before : Int64 → Int64 → Bool} {asymm : ∀ {a b}, before a b = true → before b a = false}

/-- **What the sweep comes to** on rows in an order of their times. -/
theorem swept_groupRuns {cmp : Int64 → Int64 → Ordering} [Std.TransCmp cmp] [Std.LawfulEqCmp cmp]
    (hlt : ∀ {a b}, cmp a b = .lt → before a b = true)
    (hasc : WeaklyAscending cmp (fun r : Row => r.systemTime) rows) :
    (rowSweep before asymm horizon).Swept rows
      ((groupRuns (fun r : Row => r.systemTime) rows).foldr (sweepBatch horizon) ([], [])) := by
  have hbatches : (rowSweep before asymm horizon).Batches (groupRuns (fun r : Row => r.systemTime) rows) := by
    refine ⟨fun b hb r hr => ?_, (ascending_groupRuns hasc).imp hlt⟩
    rw [(((isFibres_groupRuns hasc).mem_iff b.1 b.2).mp hb).1, List.mem_filter] at hr
    exact of_decide_eq_true hr.2
  have hswept := Sweep.sweep_spec hbatches
  rwa [batch_rowSweep, flatMap_groupRuns] at hswept

theorem dominancePrune_of_swept (hswept : (rowSweep before asymm horizon).Swept rows
    ((groupRuns (fun r : Row => r.systemTime) rows).foldr (sweepBatch horizon) ([], []))) (hpos : 0 < horizon) :
    dominancePrune rows horizon = rows.filter fun r => !(rowSweep before asymm horizon).dominated rows r := by
  unfold dominancePrune
  split
  · next hnone =>
    rcases hnone with hempty | hle
    · rw [List.isEmpty_iff.mp hempty]
      rfl
    · exact absurd hle (Int64.not_le.mpr hpos)
  · exact hswept.kept

end

def compareTimes (a b : Int64) : Ordering := compare a.toUInt64 b.toUInt64

instance : Std.TransCmp compareTimes :=
  inferInstanceAs (Std.TransCmp (compareOn Int64.toUInt64))

instance : Std.LawfulEqCmp compareTimes where
  eq_of_compare h := by simpa using congrArg UInt64.toInt64 (Std.LawfulEqCmp.eq_of_compare h)

theorem compareTimes_eq_lt (h : compareTimes a b = .lt) : keyBefore a b = true := by
  rw [compareTimes, compare_uint64, Nat.compare_eq_lt] at h
  exact decide_eq_true (UInt64.lt_iff_toNat_lt.mpr h)

/-- Rows of one hash in the order of their keys are so in the order of their system times. -/
theorem weaklyAscending_systemTime (hsorted : WeaklyAscending compare Row.frag rows)
    (hhash : ∀ r ∈ rows, r.entityIDHash = hash) :
    WeaklyAscending compareTimes (fun r : Row => r.systemTime) rows := by
  refine hsorted.imp_of_mem fun {r r'} hr hr' hle hgt => ?_
  have hle := (frag_le hle).2 ((hhash r hr).trans (hhash r' hr').symm)
  rw [compareTimes, compare_uint64, Nat.compare_eq_gt] at hgt
  exact Nat.not_lt.mpr (UInt64.le_iff_toNat_le.mp hle) hgt

/-- **The sweep drops the rows that a later row at or below the horizon covers.** -/
theorem dominancePrune_eq_filter (hsorted : WeaklyAscending compare Row.frag rows)
    (hhash : ∀ r ∈ rows, r.entityIDHash = hash) (hpos : 0 < horizon) :
    dominancePrune rows horizon = rows.filter fun r => !dominatedIn rows horizon r :=
  dominancePrune_of_swept (swept_groupRuns compareTimes_eq_lt (weaklyAscending_systemTime hsorted hhash)) hpos

/-- The order of system times, with their sign. -/
def systemBefore (a b : Int64) : Bool := a < b

theorem systemBefore_asymm (h : systemBefore a b = true) : systemBefore b a = false := by
  rw [systemBefore, decide_eq_true_iff] at h
  exact decide_eq_false fun hback => Int64.lt_irrefl (Int64.lt_trans h hback)

/-- The rule of the full scan: some row has a greater system time at or below the horizon and covers the row. -/
def referenceDominated (rows : List Row) (horizon : Int64) (r : Row) : Bool :=
  (rowSweep systemBefore systemBefore_asymm horizon).dominated rows r

theorem referenceDominated_iff : referenceDominated rows horizon r = true ↔ ∃ d ∈ rows, r.systemTime < d.systemTime ∧
    d.systemTime ≤ horizon ∧ d.validTimeStart ≤ r.validTimeStart ∧ r.validTimeEnd ≤ d.validTimeEnd := by
  rw [referenceDominated, Sweep.dominated_iff]
  refine exists_congr fun d => and_congr_right fun _ => and_congr decide_eq_true_iff (and_congr decide_eq_true_iff ?_)
  exact coveredBy_iff

/-- The sweep keeps the rows that no later row of the input, with a time at or below the horizon, covers. -/
theorem dominancePrune_eq_reference (hasc : rows.Pairwise fun r r' => r.systemTime ≤ r'.systemTime)
    (hpos : 0 < horizon) : dominancePrune rows horizon = rows.filter fun r => !referenceDominated rows horizon r := by
  have hsorted : WeaklyAscending compare (fun r : Row => r.systemTime) rows := hasc.imp fun {a b} hle hgt =>
    Int64.lt_irrefl (Int64.lt_of_lt_of_le (Std.compare_eq_gt.mp hgt) hle)
  exact dominancePrune_of_swept (swept_groupRuns (fun h => decide_eq_true (Std.compare_eq_lt.mp h)) hsorted) hpos

/-- Rows that nothing dominates below a horizon are kept by every sweep below it. -/
theorem dominancePrune_of_undominated {horizon' : Int64}
    (hasc : rows.Pairwise fun r r' => r.systemTime ≤ r'.systemTime)
    (hnone : ∀ r ∈ rows, referenceDominated rows horizon r = false) (hle : horizon' ≤ horizon) :
    dominancePrune rows horizon' = rows := by
  by_cases hpos : 0 < horizon'
  · rw [dominancePrune_eq_reference hasc hpos, List.filter_eq_self]
    intro r hr
    rw [Bool.not_eq_true', Bool.eq_false_iff]
    intro hdom
    obtain ⟨d, hd, hlt, hadm, hcov⟩ := referenceDominated_iff.mp hdom
    have hdom : referenceDominated rows horizon r = true :=
      referenceDominated_iff.mpr ⟨d, hd, hlt, Int64.le_trans hadm hle, hcov⟩
    rw [hnone r hr] at hdom
    cases hdom
  · rw [dominancePrune, if_pos (.inr (Int64.not_lt.mp hpos))]

/-- **The sweep is the reference rule.** It drops a row exactly if some row of the full input has a greater system
time at or below the horizon and a valid time that contains the row's; what it keeps is a subsequence, from which
sweeps with the same or a smaller horizon drop nothing. -/
theorem dominancePrune_is_reference (rows : List Row) (horizon : Int64)
    (hasc : rows.Pairwise fun r r' => r.systemTime ≤ r'.systemTime) (hpos : 0 < horizon) :
    dominancePrune rows horizon = rows.filter (fun r => ¬ ∃ d ∈ rows, r.systemTime < d.systemTime ∧
      d.systemTime ≤ horizon ∧ d.validTimeStart ≤ r.validTimeStart ∧ r.validTimeEnd ≤ d.validTimeEnd) ∧
    (dominancePrune rows horizon).Sublist rows ∧
    ∀ horizon' ≤ horizon, dominancePrune (dominancePrune rows horizon) horizon' = dominancePrune rows horizon := by
  have heq := dominancePrune_eq_reference hasc hpos
  have hsub : (dominancePrune rows horizon).Sublist rows := heq ▸ List.filter_sublist
  refine ⟨heq.trans (List.filter_congr fun r _ => ?_), hsub, fun horizon' hle => ?_⟩
  · rw [Bool.eq_iff_iff, Bool.not_eq_true', Bool.eq_false_iff, Ne, referenceDominated_iff, decide_eq_true_iff]
  · refine dominancePrune_of_undominated (hasc.sublist hsub) (fun r hr => ?_) hle
    have hkept := hr
    rw [heq, List.mem_filter, Bool.not_eq_true'] at hkept
    rw [Bool.eq_false_iff]
    intro hdom
    obtain ⟨d, hd, hrest⟩ := referenceDominated_iff.mp hdom
    have hdom : referenceDominated rows horizon r = true := referenceDominated_iff.mpr ⟨d, hsub.subset hd, hrest⟩
    rw [hkept.2] at hdom
    cases hdom

/-- Three rows, of which the second covers the first and the third is above the horizon. -/
theorem dominancePrune_is_reference_on_three_rows :
    dominancePrune [sampleRow 1 2 5, sampleRow 2 0 9, sampleRow 7 0 9] 3 = [sampleRow 2 0 9, sampleRow 7 0 9] ∧
    ∀ horizon' ≤ 3, dominancePrune (dominancePrune [sampleRow 1 2 5, sampleRow 2 0 9, sampleRow 7 0 9] 3) horizon' =
      dominancePrune [sampleRow 1 2 5, sampleRow 2 0 9, sampleRow 7 0 9] 3 := by
  obtain ⟨hfilter, -, hagain⟩ :=
    dominancePrune_is_reference [sampleRow 1 2 5, sampleRow 2 0 9, sampleRow 7 0 9] 3 (by decide) (by decide)
  exact ⟨hfilter.trans (by decide), hagain⟩

/-- What is left of the rows of a compaction: where a row goes, one at or below the horizon stays. -/
theorem CompactionConfig.prune_spec (c : CompactionConfig)
    (hsorted : WeaklyAscending compare Row.frag rows) (hhash : ∀ r ∈ rows, r.entityIDHash = hash) :
    (c.prune rows).Sublist rows ∧ ∀ r ∈ rows, r ∈ c.prune rows ∨
      c.enableDominancePruning = true ∧ ∃ r' ∈ c.prune rows, r'.systemTime ≤ c.pruningHorizonInt64Ns := by
  unfold CompactionConfig.prune
  split
  · next hon =>
    obtain ⟨henable, hpos⟩ := Bool.and_eq_true_iff.mp hon
    have hpos := of_decide_eq_true hpos
    have hswept : (rowSweep keyBefore keyBefore_asymm c.pruningHorizonInt64Ns).Swept rows _ :=
      swept_groupRuns compareTimes_eq_lt (weaklyAscending_systemTime hsorted hhash)
    have hkept := hswept.kept
    rw [dominancePrune_eq_filter hsorted hhash hpos]
    refine ⟨List.filter_sublist, fun r hr => ?_⟩
    cases hdom : dominatedIn rows c.pruningHorizonInt64Ns r with
    | false => exact .inl (List.mem_filter.mpr ⟨hr, by simp [hdom]⟩)
    | true =>
      obtain ⟨r', hr', -, hle, -⟩ := dominatedIn_iff.mp hdom
      obtain ⟨i, hi, -⟩ := hswept.covered r' hr' (decide_eq_true hle)
      obtain ⟨r'', hr'', hle'', -⟩ := (hswept.live i).mp hi
      exact .inr ⟨henable, r'', hkept ▸ hr'', of_decide_eq_true hle''⟩
  · exact ⟨List.Sublist.refl _, fun r hr => .inl hr⟩

end

/-! ### Answers over one L1 file -/

/-- The store with the L1 file of a compaction. -/
def l1Only (h : Hash8) : List Row → ObjectStore
  | [] => ∅
  | first :: rest => AList.insert (l1KeyFor h first.systemTime) (.arrow (first :: rest)) ∅

section
variable {R : Runtime} {r : Resolver} {q : AsOfQuery} {rows : List Row} {horizon : Int64} {entityID : EntityID}

theorem scanKeys_l1Only (c : ResolverConfig) (h : Hash8) (first : Row) (rest : List Row) (txTimeNs : Int64) :
    scanKeys c .none (l1Only h (first :: rest)) h txTimeNs = [l1KeyFor h first.systemTime] := by
  have hlist : ∀ t : Tier, (l1Only h (first :: rest)).listObjects (tierPrefix t h) =
      if t = .l1 then [l1KeyFor h first.systemTime] else [] := by
    intro t
    have hpre : (tierPrefix t h).isPrefixOf (l1KeyFor h first.systemTime) = decide (t = .l1) := by
      rw [Bool.eq_iff_iff, List.isPrefixOf_iff_prefix, l1KeyFor, tierPrefix_isPrefix_iff, decide_eq_true_iff]
      simp
    have hkeys : (l1Only h (first :: rest)).keys = [l1KeyFor h first.systemTime] := by
      rw [l1Only, AList.keys_insert]
      rfl
    rw [ObjectStore.listObjects, hkeys]
    by_cases ht : t = .l1
    · subst ht
      simp [hpre, sortStrings, sortBy]
    · simp [hpre, ht, sortStrings, sortBy]
  simp [scanKeys, tailKeys, capTail, hlist, sortStrings, sortBy]

/-- **`AsOf` over one L1 file** scans its rows. -/
theorem scan_l1Only (hsorted : WeaklyAscending compare Row.frag rows)
    (hrows : ∀ row ∈ rows, belongs r.runtime q.entityID row = true) :
    (scanKeys r.config .none (l1Only (entityHash8 r.runtime q.entityID) rows) (entityHash8 r.runtime q.entityID)
        q.txTimeNs).foldl (scanStep r .none (l1Only (entityHash8 r.runtime q.entityID) rows) q) none =
      scanFile r.runtime q rows := by
  cases rows with
  | nil =>
    simp [l1Only, scanKeys, tailKeys, capTail, ObjectStore.listObjects, sortStrings, sortBy, scanFile,
      scanRecordBatch, laterOf]
  | cons first rest =>
    have hlatest := isLatest_scanFile (R := r.runtime) (q := q) (first :: rest)
    have hat : (l1Only (entityHash8 r.runtime q.entityID) (first :: rest)).rowsAt
        (l1KeyFor (entityHash8 r.runtime q.entityID) first.systemTime) = first :: rest :=
      ObjectStore.rowsAt_insert_self
    rw [scanKeys_l1Only, List.foldl_cons, List.foldl_nil, scanStep]
    cases hskip : r.config.skips q.txTimeNs (l1KeyFor (entityHash8 r.runtime q.entityID) first.systemTime) with
    | false =>
      rw [fileRows_of_not_skips hskip rfl (hat.symm ▸ List.mem_cons_self), hat]
      exact hlatest.laterOf_none
    | true =>
      rw [fileRows, if_pos hskip]
      -- a skipped file has no row of the query after zero
      cases hfound : scanFile r.runtime q (first :: rest) with
      | none => rfl
      | some ev =>
        exfalso
        obtain ⟨⟨row, hrow, hadm, rfl⟩, hpos⟩ := hlatest.mem ev hfound
        have hle := firstSysTime_le hsorted
          (fun row hrow => of_decide_eq_true (Bool.and_eq_true_iff.mp (hrows row hrow)).1) hrow
        have hle := le_of_toUInt64_le (Int64.le_of_lt hpos) hle
        obtain ⟨-, hskip⟩ := Bool.and_eq_true_iff.mp hskip
        rw [l1KeyFor, parseFirstSysFromKey_objectKey] at hskip
        split at hskip
        · next m hm =>
          split at hm
          · cases hm
          · cases hm
            have hlt := of_decide_eq_true hskip
            have htx := (admitsTimes_iff.mp (admits_iff.mp hadm).2).1
            exact Int64.lt_irrefl (Int64.lt_of_lt_of_le hlt (Int64.le_trans hle htx))
        · cases hskip

theorem scanFile_eq_foldl (rows : List Row) :
    scanFile R q rows = (((rows.filter (q.admits R)).map Row.toTriTemporalEvent).filter
      fun ev => !(ev.systemTime ≤ 0)).foldl (later TriTemporalEvent.systemTime) none := by
  rw [scanFile, (isLatest_scanRecordBatch rows).laterOf_none, scanRecordBatch, ← List.filter_filter, List.filter_map,
    List.foldl_map, List.filter_comm]
  rfl

/-- **Dropping rows changes the answer of a file only if it drops the answer.** -/
theorem scanFile_filter {p : TriTemporalEvent → Bool} (hp : ∀ ev ∈ scanFile R q rows, p ev = true) :
    scanFile R q (rows.filter fun row => p row.toTriTemporalEvent) = scanFile R q rows := by
  rw [scanFile_eq_foldl] at hp
  rw [scanFile_eq_foldl, scanFile_eq_foldl]
  conv_rhs => rw [← foldl_later_filter hp]
  congr 1
  have hmap : ((rows.filter (q.admits R)).filter fun row => p row.toTriTemporalEvent).map Row.toTriTemporalEvent =
      ((rows.filter (q.admits R)).map Row.toTriTemporalEvent).filter p := List.filter_map.symm
  rw [List.filter_comm, hmap, List.filter_comm]

/-- Read without its sign, a negative time is greater than every other. -/
theorem toUInt64_lt_of_neg {a n : Int64} (ha : 0 ≤ a) (hn : n < 0) : a.toUInt64 < n.toUInt64 := by
  have hlt := a.toBitVec.isLt
  rw [Int64.le_iff_toInt_le, show a.toInt = a.toBitVec.toInt from rfl, BitVec.toInt_eq_toNat_cond] at ha
  rw [Int64.lt_iff_toInt_lt, show n.toInt = n.toBitVec.toInt from rfl, BitVec.toInt_eq_toNat_cond] at hn
  rw [UInt64.lt_iff_toNat_lt]
  show a.toBitVec.toNat < n.toBitVec.toNat
  simp only [Int64.toInt_zero] at ha hn
  split at ha <;> split at hn <;> omega

/-- No row with a negative system time covers an answer at or above the horizon. -/
def NoNegativeCover (R : Runtime) (entityID : EntityID) (rows : List Row) (horizon : Int64) : Prop :=
  ∀ q : AsOfQuery, q.entityID = entityID → horizon ≤ q.txTimeNs →
    ∀ ev ∈ scanFile R q (sortBy compare Row.frag rows), ∀ row ∈ rows, row.systemTime < 0 →
      ¬ (row.validTimeStart ≤ ev.validTimeStart ∧ ev.validTimeEnd ≤ row.validTimeEnd)

theorem neg_of_dominates (hrows : ∀ row ∈ rows, belongs R q.entityID row = true) (htx : horizon ≤ q.txTimeNs)
    {ev : TriTemporalEvent} (hev : ev ∈ scanFile R q rows) {row : Row} (hrow : row ∈ rows)
    (hlt : ev.systemTime.toUInt64 < row.systemTime.toUInt64) (hle : row.systemTime ≤ horizon)
    (hlo : row.validTimeStart ≤ ev.validTimeStart) (hhi : ev.validTimeEnd ≤ row.validTimeEnd) :
    row.systemTime < 0 := by
  have hlatest := isLatest_scanFile (R := R) (q := q) rows
  obtain ⟨⟨row', -, hadm, rfl⟩, hpos⟩ := hlatest.mem ev hev
  by_contra hneg
  -- else it passes the filters as the answer does, and is later
  obtain ⟨-, hvlo, hvhi⟩ := admitsTimes_iff.mp (admits_iff.mp hadm).2
  have hcand : q.admits R row = true := admits_iff.mpr ⟨hrows row hrow, admitsTimes_iff.mpr
    ⟨Int64.le_trans hle htx, Int64.le_trans hlo hvlo, Int64.lt_of_lt_of_le hvhi hhi⟩⟩
  have hmax := hlatest.le row.toTriTemporalEvent ⟨row, hrow, hcand, rfl⟩
  rw [Option.mem_def.mp hev] at hmax
  have hback := Int64.toUInt64_le (Int64.not_lt.mp hneg) hmax
  exact UInt64.lt_irrefl _ (UInt64.lt_of_lt_of_le hlt hback)

/-- Pruning keeps the answers of a file iff none of them is covered from below zero. -/
theorem scanFile_prune_iff (hrows : ∀ row ∈ rows, belongs R entityID row = true) (hpos : 0 < horizon) :
    (∀ q : AsOfQuery, q.entityID = entityID → horizon ≤ q.txTimeNs →
      scanFile R q (dominancePrune (sortBy compare Row.frag rows) horizon) =
        scanFile R q (sortBy compare Row.frag rows)) ↔ NoNegativeCover R entityID rows horizon := by
  have hperm : (sortBy compare Row.frag rows).Perm rows := sortBy_perm rows
  set sorted := sortBy compare Row.frag rows
  have hbelongs : ∀ row ∈ sorted, belongs R entityID row = true := fun row hrow => hrows row (hperm.mem_iff.mp hrow)
  rw [dominancePrune_eq_filter (weaklyAscending_sortBy rows)
    (fun row hrow => of_decide_eq_true (Bool.and_eq_true_iff.mp (hbelongs row hrow)).1) hpos]
  constructor
  · rintro hsame q rfl htx ev hev row hrow hneg ⟨hlo, hhi⟩
    have hev' := hev
    rw [← hsame q rfl htx] at hev'
    obtain ⟨⟨row', hkept, -, rfl⟩, hpos'⟩ := (isLatest_scanFile _).mem _ hev'
    have hdom : dominatedIn sorted horizon row' = true :=
      dominatedIn_iff.mpr ⟨row, hperm.mem_iff.mpr hrow, toUInt64_lt_of_neg (Int64.le_of_lt hpos') hneg,
        Int64.le_of_lt (Int64.lt_trans hneg hpos), hlo, hhi⟩
    rw [List.mem_filter, hdom] at hkept
    cases hkept.2
  · rintro hcover q rfl htx
    refine scanFile_filter (p := fun ev => !dominatedIn sorted horizon ⟨ev, .zero 16⟩) fun ev hev => ?_
    rw [Bool.not_eq_true', Bool.eq_false_iff, Ne, dominatedIn_iff]
    rintro ⟨row, hrow, hlt, hle, hlo, hhi⟩
    exact hcover q rfl htx ev hev row (hperm.mem_iff.mp hrow)
      (neg_of_dominates hbelongs htx hev hrow hlt hle hlo hhi) ⟨hlo, hhi⟩

/-- **Pruning changes no answer of `AsOf` at or above the horizon iff no row with a negative system time covers such
an answer.** -/
theorem pruning_is_sound_iff (hid : entityID ≠ []) (hrows : ∀ row ∈ rows, belongs R entityID row = true) :
    (∀ (r : Resolver) (q : AsOfQuery), r.runtime = R → q.entityID = entityID → horizon ≤ q.txTimeNs →
      r.asOf .none (l1Only (entityHash8 R entityID)
          (CompactionConfig.prune ⟨true, horizon⟩ (sortBy compare Row.frag rows))) q =
        r.asOf .none (l1Only (entityHash8 R entityID) (sortBy compare Row.frag rows)) q) ↔
      (0 < horizon → NoNegativeCover R entityID rows horizon) := by
  by_cases hpos : 0 < horizon
  swap
  · simp [CompactionConfig.prune, hpos]
  have hperm : (sortBy compare Row.frag rows).Perm rows := sortBy_perm rows
  have hsorted : WeaklyAscending compare Row.frag (sortBy compare Row.frag rows) := weaklyAscending_sortBy rows
  have hbelongs : ∀ row ∈ sortBy compare Row.frag rows, belongs R entityID row = true := fun row hrow =>
    hrows row (hperm.mem_iff.mp hrow)
  have hprune : CompactionConfig.prune ⟨true, horizon⟩ (sortBy compare Row.frag rows) =
      dominancePrune (sortBy compare Row.frag rows) horizon := by simp [CompactionConfig.prune, hpos]
  have hsub : (dominancePrune (sortBy compare Row.frag rows) horizon).Sublist (sortBy compare Row.frag rows) := by
    rw [dominancePrune_eq_filter hsorted
      (fun row hrow => of_decide_eq_true (Bool.and_eq_true_iff.mp (hbelongs row hrow)).1) hpos]
    exact List.filter_sublist
  rw [hprune, ← scanFile_prune_iff hrows hpos, forall_prop_of_true hpos]
  have hscan : ∀ (r : Resolver) (q : AsOfQuery), r.runtime = R → q.entityID = entityID → ∀ rows',
      rows'.Sublist (sortBy compare Row.frag rows) →
        r.dominant .none (l1Only (entityHash8 R entityID) rows') q =
          (r.liveRead q.entityID q.txTimeNs).foldl (liveStep q) (scanFile R q rows') := by
    rintro r q rfl rfl rows' hsub
    rw [Resolver.dominant, scan_l1Only (hsorted.sublist hsub) fun row hrow => hbelongs row (hsub.subset hrow)]
  constructor
  · rintro hsame q rfl htx
    have heq := hsame ⟨R, defaultResolverConfig, none⟩ q rfl rfl htx
    rw [asOf_eq_of_dominant hid, asOf_eq_of_dominant hid, hscan _ q rfl rfl _ hsub,
      hscan _ q rfl rfl _ (List.Sublist.refl _)] at heq
    simp only [Resolver.liveRead, List.foldl_nil] at heq
    cases hp : scanFile R q (dominancePrune (sortBy compare Row.frag rows) horizon) <;>
      cases hs : scanFile R q (sortBy compare Row.frag rows) <;> simp_all
  · rintro hsame r q rfl rfl htx
    rw [asOf_eq_of_dominant hid, asOf_eq_of_dominant hid, hscan r q rfl rfl _ hsub,
      hscan r q rfl rfl _ (List.Sublist.refl _), hsame q rfl htx]

theorem pruning_is_sound_after_zero :
    sampleResolver.asOf .none (l1Only sampleHash (CompactionConfig.prune ⟨true, 5⟩
        (sortBy compare Row.frag [sampleRow 1 0 10, sampleRow 2 0 10]))) ⟨[0x61], 5, 7⟩ =
      sampleResolver.asOf .none (l1Only sampleHash
        (sortBy compare Row.frag [sampleRow 1 0 10, sampleRow 2 0 10])) ⟨[0x61], 5, 7⟩ := by
  have hpos : ∀ row ∈ [sampleRow 1 0 10, sampleRow 2 0 10], ¬ row.systemTime < 0 := by decide
  exact (pruning_is_sound_iff (R := .sample) (by decide) (by decide +kernel)).mpr
    (fun _ q _ _ ev _ row hrow hneg => absurd hneg (hpos row hrow)) sampleResolver ⟨[0x61], 5, 7⟩ rfl rfl (by decide)

/-- A row before zero covers a row at time 5, which is dropped. -/
theorem row_covered_from_below_zero_is_lost :
    sampleResolver.asOf .none (l1Only sampleHash
        (sortBy compare Row.frag [sampleRow 5 2 4, sampleRow (-3) 0 10])) ⟨[0x61], 3, 9⟩ =
      .ok (sampleRow 5 2 4).toTriTemporalEvent ∧
    sampleResolver.asOf .none (l1Only sampleHash (CompactionConfig.prune ⟨true, 1⟩
        (sortBy compare Row.frag [sampleRow 5 2 4, sampleRow (-3) 0 10]))) ⟨[0x61], 3, 9⟩ =
      .error .entityNotFound := by
  decide +kernel

end

end Sovereign.Database

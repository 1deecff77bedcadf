import Sovereign.Database.Pruned

/-!
# The inferred pruning horizon

`L1Compactor` infers its pruning horizon from the queries: `AsOf` observes the greatest transaction time it has been
asked for (`observeQueryTxTime`), `EffectiveHorizon` subtracts the backoff from it and keeps above the operator's
floor, and `SetInferredHorizon` takes the result over if it is greater than the present horizon.

A history is a list of uploads of L0 files, queries, inferences and compactions.  What would be found "if nothing had
been pruned" is the state of the same history with `EnableDominancePruning` off.

* `Modest` — the transaction times of queries do not run ahead of the rows.  Then the horizon is at most the newest
  system time minus the backoff, or the floor (`Bounded`).
* `Twins` — a service and the one without pruning have the same L0 files, and where nothing could be pruned the same
  objects; every modest step keeps this (`Twins.step`).

A query in the far future takes the horizon past every row.
-/

namespace Sovereign.Database

open Lib Sync MemTable

/-! ### The compactor and its horizon -/

/-- `L1Compactor`, the part that decides what is pruned: its configuration and the `horizonInferrer`. -/
structure L1Compactor where
  config : CompactionConfig
  operatorFloor : Int64
  backoffNs : Int64
deriving DecidableEq

/-- `NewL1Compactor`: pruning without a positive horizon is turned off. -/
def newL1Compactor (config : CompactionConfig) (backoffNs : Int64) : L1Compactor :=
  if config.enableDominancePruning && config.pruningHorizonInt64Ns ≤ 0 then ⟨⟨false, 0⟩, 0, backoffNs⟩
  else ⟨config, config.pruningHorizonInt64Ns, backoffNs⟩

namespace L1Compactor

def horizon (c : L1Compactor) : Int64 := c.config.pruningHorizonInt64Ns

def effectiveHorizon (c : L1Compactor) (observedFrontier : Int64) : Int64 :=
  let inferred := observedFrontier - c.backoffNs
  if inferred < c.operatorFloor then c.operatorFloor else inferred

def setInferredHorizon (c : L1Compactor) (candidate : Int64) : L1Compactor :=
  if candidate ≤ c.config.pruningHorizonInt64Ns then c
  else { c with config := { c.config with pruningHorizonInt64Ns := candidate } }

def inferHorizon (c : L1Compactor) (observedFrontier : Int64) : L1Compactor :=
  c.setInferredHorizon (c.effectiveHorizon observedFrontier)

end L1Compactor

/-- `observeQueryTxTime`: the greater of the two, whoever else observes. -/
def observeQueryTxTime (observed txTimeNs : Int64) : Int64 := if txTimeNs ≤ observed then observed else txTimeNs

/-! ### Histories -/

structure QueryService where
  store : ObjectStore
  compactor : L1Compactor
  frontier : Int64

inductive ServiceStep where
  | upload (p : L0Partition) (sound : p.Sound)
  | asOf (q : AsOfQuery)
  | range (q : RangeQuery)
  | inferHorizon
  | compaction (f : CompactionFaults) (entityID : EntityID)

namespace QueryService

def new (config : CompactionConfig) (backoffNs : Int64) : QueryService := ⟨∅, newL1Compactor config backoffNs, 0⟩

/-- One step.  `Range` does not observe its transaction time, nor does `AsOf` without an entity. -/
def step (R : Runtime) (t : QueryService) : ServiceStep → QueryService
  | .upload p _ => { t with store := t.store.insert p.key (.arrow p.rows) }
  | .asOf q =>
    if q.entityID.isEmpty then t else { t with frontier := observeQueryTxTime t.frontier q.txTimeNs }
  | .range _ => t
  | .inferHorizon => { t with compactor := t.compactor.inferHorizon t.frontier }
  | .compaction f entityID =>
    { t with store := (Database.compaction R t.compactor.config f t.store entityID (entityHash8 R entityID)).1 }

end QueryService

/-! ### The horizon does not retreat -/

section
variable {R : Runtime} {c : L1Compactor} {t : QueryService}

theorem horizon_setInferredHorizon (c : L1Compactor) (candidate : Int64) :
    (c.setInferredHorizon candidate).horizon = if candidate ≤ c.horizon then c.horizon else candidate := by
  rw [L1Compactor.setInferredHorizon, L1Compactor.horizon, L1Compactor.horizon]
  split
  · rfl
  · rfl

theorem horizon_le_inferHorizon (c : L1Compactor) (observed : Int64) : c.horizon ≤ (c.inferHorizon observed).horizon := by
  rw [L1Compactor.inferHorizon, horizon_setInferredHorizon]
  split
  · exact Int64.le_refl _
  · next h => exact Int64.le_of_lt (Int64.not_le.mp h)

/-- Inference touches nothing but the horizon. -/
theorem inferHorizon_frame (c : L1Compactor) (observed : Int64) :
    (c.inferHorizon observed).operatorFloor = c.operatorFloor ∧ (c.inferHorizon observed).backoffNs = c.backoffNs ∧
      (c.inferHorizon observed).config.enableDominancePruning = c.config.enableDominancePruning := by
  rw [L1Compactor.inferHorizon, L1Compactor.setInferredHorizon]
  split
  · exact ⟨rfl, rfl, rfl⟩
  · exact ⟨rfl, rfl, rfl⟩

theorem compactor_step (R : Runtime) (t : QueryService) (i : ServiceStep) :
    (t.step R i).compactor = t.compactor ∨ (t.step R i).compactor = t.compactor.inferHorizon t.frontier := by
  cases i with
  | upload p sound => exact .inl rfl
  | asOf q =>
    left
    rw [QueryService.step]
    split
    · rfl
    · rfl
  | range q => exact .inl rfl
  | inferHorizon => exact .inr rfl
  | compaction f entityID => exact .inl rfl

/-- **No history lowers the horizon.** -/
theorem horizon_le_foldl (steps : List ServiceStep) (t : QueryService) :
    t.compactor.horizon ≤ (steps.foldl (QueryService.step R) t).compactor.horizon := by
  induction steps generalizing t with
  | nil => exact Int64.le_refl _
  | cons i steps ih =>
    refine Int64.le_trans ?_ (ih (t.step R i))
    rcases compactor_step R t i with heq | heq
    · rw [heq]
      exact Int64.le_refl _
    · rw [heq]
      exact horizon_le_inferHorizon _ _

theorem constants_foldl (steps : List ServiceStep) (t : QueryService) :
    (steps.foldl (QueryService.step R) t).compactor.operatorFloor = t.compactor.operatorFloor ∧
      (steps.foldl (QueryService.step R) t).compactor.backoffNs = t.compactor.backoffNs := by
  induction steps generalizing t with
  | nil => exact ⟨rfl, rfl⟩
  | cons i steps ih =>
    obtain ⟨hfloor, hbackoff⟩ := ih (t.step R i)
    rw [List.foldl_cons, hfloor, hbackoff]
    rcases compactor_step R t i with heq | heq
    · rw [heq]
      exact ⟨rfl, rfl⟩
    · rw [heq]
      exact ⟨(inferHorizon_frame _ _).1, (inferHorizon_frame _ _).2.1⟩

theorem backoffNs_new (config : CompactionConfig) (backoffNs : Int64) :
    (newL1Compactor config backoffNs).backoffNs = backoffNs := by
  rw [newL1Compactor]
  split
  · rfl
  · rfl

theorem floor_eq_horizon_new (config : CompactionConfig) (backoffNs : Int64) :
    (newL1Compactor config backoffNs).operatorFloor = (newL1Compactor config backoffNs).horizon := by
  rw [newL1Compactor]
  split
  · rfl
  · rfl

/-- **No history takes the horizon below the floor.** -/
theorem floor_le_horizon (config : CompactionConfig) (backoffNs : Int64) (steps : List ServiceStep) :
    (newL1Compactor config backoffNs).operatorFloor ≤
      (steps.foldl (QueryService.step R) (.new config backoffNs)).compactor.horizon := by
  rw [floor_eq_horizon_new]
  exact horizon_le_foldl steps (.new config backoffNs)

end

/-! ### How far the horizon goes -/

/-- Some stored row is not before the time. -/
def ObjectStore.Reaches (s : ObjectStore) (time : Int64) : Prop :=
  ∃ key ∈ s.keys, ∃ row ∈ s.rowsAt key, time ≤ row.systemTime

instance (s : ObjectStore) (time : Int64) : Decidable (s.Reaches time) :=
  inferInstanceAs (Decidable (∃ key ∈ _, ∃ row ∈ _, _))

/-- The condition on a step, in the state before it: a file is new and has rows after time zero; a query does not ask
for a time after the newest row; a compaction reads all rows under its prefix, and they are of its entity. -/
def ServiceStep.Modest (R : Runtime) (t : QueryService) : ServiceStep → Prop
  | .upload p _ => p.key ∉ t.store ∧ ∀ row ∈ p.rows, 0 < row.systemTime
  | .asOf q => 0 < q.txTimeNs → t.store.Reaches q.txTimeNs
  | .range _ => True
  | .inferHorizon => True
  | .compaction f entityID => AllMerged R f t.store entityID (entityHash8 R entityID)

instance (R : Runtime) (t : QueryService) : ∀ step : ServiceStep, Decidable (step.Modest R t)
  | .upload _ _ => inferInstanceAs (Decidable (_ ∧ _))
  | .asOf _ => inferInstanceAs (Decidable (_ → _))
  | .range _ => isTrue trivial
  | .inferHorizon => isTrue trivial
  | .compaction f entityID => inferInstanceAs (Decidable (AllMerged R f t.store entityID (entityHash8 R entityID)))

/-- The frontier is behind the rows, and the horizon is at the floor or the backoff behind the frontier. -/
structure Bounded (t : QueryService) : Prop where
  frontier_nonneg : 0 ≤ t.frontier
  frontier_le : 0 < t.frontier → t.store.Reaches t.frontier
  horizon_le : t.compactor.horizon ≤ t.compactor.operatorFloor ∨
    t.compactor.horizon.toInt ≤ t.frontier.toInt - t.compactor.backoffNs.toInt

/-- No L0 row of the hash is covered by a later one at or below the horizon. -/
def NothingToPrune (t : QueryService) (h : Hash8) : Prop :=
  t.compactor.config.enableDominancePruning = true → ∀ row ∈ t.store.tierRows .l0 h, ∀ row' ∈ t.store.tierRows .l0 h,
    row.systemTime < row'.systemTime → row'.systemTime ≤ t.compactor.horizon → row.coveredBy row'.interval = false

instance (t : QueryService) (h : Hash8) : Decidable (NothingToPrune t h) :=
  inferInstanceAs (Decidable (_ → ∀ row ∈ _, ∀ row' ∈ _, _ → _ → _))

/-- A service, and the one to which the same happened without pruning. -/
structure Twins (t u : QueryService) : Prop where
  pruned : PrunedStore t.compactor.horizon t.store
  unpruned : PrunedStore Int64.minValue u.store
  off : u.compactor.config.enableDominancePruning = false
  l0 : ∀ key, Tier.l0.dir <+: key → u.store.lookup key = t.store.lookup key
  bounded : Bounded t
  same : ∀ h, NothingToPrune t h → SameUnder h t.store u.store

section
variable {R : Runtime} {t u : QueryService} {c : L1Compactor} {s : ObjectStore}
  {txTimeNs horizon : Int64} {s' : ObjectStore} {p : L0Partition}

theorem toInt_sub_le {a b : Int64} (ha : 0 ≤ a) : (a - b).toInt ≤ a.toInt - b.toInt := by
  rw [Int64.le_iff_toInt_le, Int64.toInt_zero] at ha
  have hb := b.toInt_lt
  rw [Int64.toInt_sub, Int.bmod_def]
  split <;> omega

/-- The subtraction of the source can wrap around only downwards. -/
theorem effectiveHorizon_le {observed : Int64} (hobserved : 0 ≤ observed) :
    c.effectiveHorizon observed ≤ c.operatorFloor ∨
      (c.effectiveHorizon observed).toInt ≤ observed.toInt - c.backoffNs.toInt := by
  unfold L1Compactor.effectiveHorizon
  dsimp only
  split
  · exact .inl (Int64.le_refl _)
  · exact .inr (toInt_sub_le hobserved)

theorem Bounded.inferHorizon (hb : Bounded t) :
    Bounded { t with compactor := t.compactor.inferHorizon t.frontier } := by
  obtain ⟨hfloor, hbackoff, -⟩ := inferHorizon_frame t.compactor t.frontier
  refine ⟨hb.frontier_nonneg, hb.frontier_le, ?_⟩
  dsimp only
  rw [hfloor, hbackoff, L1Compactor.inferHorizon, horizon_setInferredHorizon]
  split
  · exact hb.horizon_le
  · exact effectiveHorizon_le hb.frontier_nonneg

theorem Bounded.observe (hb : Bounded t) (htx : 0 < txTimeNs → t.store.Reaches txTimeNs) :
    Bounded { t with frontier := observeQueryTxTime t.frontier txTimeNs } := by
  unfold observeQueryTxTime
  split
  · exact hb
  · next hlt =>
    have hlt := Int64.not_le.mp hlt
    refine ⟨Int64.le_of_lt (Int64.lt_of_le_of_lt hb.frontier_nonneg hlt), htx, hb.horizon_le.imp_right fun hle => ?_⟩
    rw [Int64.lt_iff_toInt_lt] at hlt
    dsimp only
    omega

theorem ObjectStore.reaches_iff {time : Int64} : s.Reaches time ↔ ∃ key, ∃ row ∈ s.rowsAt key, time ≤ row.systemTime := by
  constructor
  · rintro ⟨key, -, hreach⟩
    exact ⟨key, hreach⟩
  · rintro ⟨key, row, hrow, hle⟩
    have hmem := ObjectStore.mem_of_lookup (ObjectStore.lookup_of_mem_rowsAt hrow)
    exact ⟨key, AList.mem_keys.mp hmem, row, hrow, hle⟩

/-- The time of a row is reached as long as the L0 files are there. -/
theorem PrunedStore.reaches {time : Int64} (hs : PrunedStore horizon s)
    (hkept : ∀ h, ∀ row ∈ s.tierRows .l0 h, row ∈ s'.tierRows .l0 h) (hreach : s.Reaches time) : s'.Reaches time := by
  obtain ⟨key, row, hrow, hle⟩ := ObjectStore.reaches_iff.mp hreach
  obtain ⟨tier, h, m, rfl, htier, -⟩ := hs.timed.file key _ (ObjectStore.lookup_of_mem_rowsAt hrow)
  have hmem : row ∈ s.tierRows tier h := ObjectStore.mem_tierRows.mpr ⟨_, List.prefix_append _ _, hrow⟩
  have hl0 : row ∈ s.tierRows .l0 h := by
    cases tier with
    | l0 => exact hmem
    | l1 => exact hs.fromL0 h row hmem
    | compaction => exact absurd rfl htier
  obtain ⟨key', -, hrow'⟩ := ObjectStore.mem_tierRows.mp (hkept h row hl0)
  exact ObjectStore.reaches_iff.mpr ⟨key', row, hrow', hle⟩

theorem PrunedStore.bounded (hs : PrunedStore horizon t.store)
    (hkept : ∀ h, ∀ row ∈ t.store.tierRows .l0 h, row ∈ s'.tierRows .l0 h) (hb : Bounded t) :
    Bounded { t with store := s' } :=
  ⟨hb.frontier_nonneg, fun hpos => hs.reaches hkept (hb.frontier_le hpos), hb.horizon_le⟩

/-- **The horizon is at or below every query that is not further behind the newest row than the backoff.** -/
theorem Bounded.horizon_le_txTime (hb : Bounded t) (hs : PrunedStore t.compactor.horizon t.store)
    (hfloor : t.compactor.operatorFloor ≤ txTimeNs) (hnewest : ∀ key ∈ t.store.keys, ∀ row ∈ t.store.rowsAt key,
      row.systemTime.toInt - t.compactor.backoffNs.toInt ≤ txTimeNs.toInt)
    (hrow : ∃ key, t.store.rowsAt key ≠ []) : t.compactor.horizon ≤ txTimeNs := by
  rcases hb.horizon_le with hle | hle
  · exact Int64.le_trans hle hfloor
  · obtain ⟨key, hne⟩ := hrow
    obtain ⟨row, hrow⟩ := List.exists_mem_of_ne_nil _ hne
    -- a frontier that is not after zero is before that row, any other is reached
    have hreach : t.store.Reaches t.frontier := by
      by_cases hpos : 0 < t.frontier
      · exact hb.frontier_le hpos
      · exact ObjectStore.reaches_iff.mpr
          ⟨key, row, hrow, Int64.le_trans (Int64.not_lt.mp hpos) (Int64.le_of_lt (hs.pos key row hrow))⟩
    obtain ⟨key', hkey', row', hrow', hbehind⟩ := hreach
    have hnew := hnewest key' hkey' row' hrow'
    rw [Int64.le_iff_toInt_le] at hbehind ⊢
    omega

theorem CompactionConfig.prune_eq_self {config : CompactionConfig} {rows : List Row}
    (hsorted : WeaklyAscending compare Row.frag rows) {hash : FixedBytes 16} (hhash : ∀ r ∈ rows, r.entityIDHash = hash)
    (hpos : ∀ row ∈ rows, 0 < row.systemTime)
    (hnothing : config.enableDominancePruning = true → ∀ row ∈ rows, ∀ row' ∈ rows, row.systemTime < row'.systemTime →
      row'.systemTime ≤ config.pruningHorizonInt64Ns → row.coveredBy row'.interval = false) :
    config.prune rows = rows := by
  unfold CompactionConfig.prune
  split
  · next hon =>
    obtain ⟨henable, hhorizon⟩ := Bool.and_eq_true_iff.mp hon
    rw [dominancePrune_eq_filter hsorted hhash (of_decide_eq_true hhorizon), List.filter_eq_self]
    intro row hrow
    rw [Bool.not_eq_true', Bool.eq_false_iff]
    intro hdom
    obtain ⟨row', hrow', hlt, hle, hcov⟩ := dominatedIn_iff.mp hdom
    have hnone := hnothing henable row hrow row' hrow' (lt_of_toUInt64_lt (Int64.le_of_lt (hpos row' hrow')) hlt) hle
    rw [coveredBy_iff.mpr hcov] at hnone
    cases hnone
  · rfl

theorem NothingToPrune.mono {t' : QueryService} {h : Hash8} (hnothing : NothingToPrune t' h)
    (henable : t'.compactor.config.enableDominancePruning = t.compactor.config.enableDominancePruning)
    (hhorizon : t.compactor.horizon ≤ t'.compactor.horizon)
    (hrows : ∀ row ∈ t.store.tierRows .l0 h, row ∈ t'.store.tierRows .l0 h) : NothingToPrune t h :=
  fun hon row hrow row' hrow' hlt hle =>
    hnothing (henable.trans hon) row (hrows row hrow) row' (hrows row' hrow') hlt (Int64.le_trans hle hhorizon)

theorem mem_tierRows_upload (hnew : p.key ∉ s) {h : Hash8} :
    ∀ row ∈ s.tierRows .l0 h, row ∈ ObjectStore.tierRows (s.insert p.key (.arrow p.rows)) .l0 h := by
  intro row hrow
  obtain ⟨key, hpre, hrow⟩ := ObjectStore.mem_tierRows.mp hrow
  refine ObjectStore.mem_tierRows.mpr ⟨key, hpre, ?_⟩
  rwa [ObjectStore.rowsAt_insert_of_ne]
  rintro rfl
  exact hnew (ObjectStore.mem_of_lookup (ObjectStore.lookup_of_mem_rowsAt hrow))

theorem Twins.upload (ht : Twins t u) (hp : p.Sound) (hnew : p.key ∉ t.store)
    (hpos : ∀ row ∈ p.rows, 0 < row.systemTime) : Twins { t with store := t.store.insert p.key (.arrow p.rows) }
      { u with store := u.store.insert p.key (.arrow p.rows) } := by
  have hnew' : p.key ∉ u.store := by
    have hl0 : Tier.l0.dir <+: p.key := dir_isPrefix_tierPrefix (List.prefix_append _ _)
    rw [← AList.lookup_isSome, ht.l0 _ hl0, AList.lookup_isSome]
    exact hnew
  have hinsert : ∀ key, u.store.lookup key = t.store.lookup key →
      (u.store.insert p.key (.arrow p.rows)).lookup key = (t.store.insert p.key (.arrow p.rows)).lookup key :=
    fun key hkey => (lookup_upload_congr p.key (.arrow p.rows) .ok hkey).1
  refine ⟨ht.pruned.upload hp hnew hpos, ht.unpruned.upload hp hnew' hpos, ht.off,
    fun key hkey => hinsert key (ht.l0 key hkey), ht.pruned.bounded (fun h => mem_tierRows_upload hnew) ht.bounded,
    fun h hnothing tier key hpre => hinsert key ?_⟩
  exact ht.same h (hnothing.mono (t := t) rfl (Int64.le_refl _) (mem_tierRows_upload hnew)) tier key hpre

theorem Twins.compaction (ht : Twins t u) {f : CompactionFaults} {entityID : EntityID}
    (hall : AllMerged R f t.store entityID (entityHash8 R entityID)) :
    Twins (t.step R (.compaction f entityID)) (u.step R (.compaction f entityID)) := by
  have hl0 : ∀ (v : QueryService) key, Tier.l0.dir <+: key →
      (v.step R (.compaction f entityID)).store.lookup key = v.store.lookup key := by
    intro v key hkey
    rw [QueryService.step]
    rcases compaction_compacted R v.compactor.config f v.store entityID (entityHash8 R entityID) with
      heq | ⟨first, merged, -, -, hc⟩
    · dsimp only
      rw [heq]
    · exact hc.l0 hkey
  have hother : ∀ (v : QueryService) {h : Hash8} {tier : Tier} {key : ObjectKey}, h ≠ entityHash8 R entityID →
      tierPrefix tier h <+: key → (v.step R (.compaction f entityID)).store.lookup key = v.store.lookup key := by
    intro v h tier key hh hpre
    rw [QueryService.step]
    rcases compaction_compacted R v.compactor.config f v.store entityID (entityHash8 R entityID) with
      heq | ⟨first, merged, -, -, hc⟩
    · dsimp only
      rw [heq]
    · exact hc.otherHash hh hpre
  have hrows : ∀ h, ∀ row, row ∈ (t.step R (.compaction f entityID)).store.tierRows .l0 h ↔
      row ∈ t.store.tierRows .l0 h := fun h row =>
    ObjectStore.mem_tierRows_congr fun key hpre => hl0 t key (dir_isPrefix_tierPrefix hpre)
  have hall' : AllMerged R f u.store entityID (entityHash8 R entityID) := by
    have hsame : ∀ key, tierPrefix .l0 (entityHash8 R entityID) <+: key → u.store.lookup key = t.store.lookup key :=
      fun key hpre => ht.l0 key (dir_isPrefix_tierPrefix hpre)
    intro key hkey row hrow
    rw [ObjectStore.listObjects_congr hsame] at hkey ⊢
    rw [ObjectStore.rowsAt_congr (hsame key (ObjectStore.mem_listObjects.mp hkey).2)] at hrow
    obtain ⟨hbelongs, key', hkey', hread, hrow'⟩ := hall key hkey row hrow
    refine ⟨hbelongs, key', hkey', hread, ?_⟩
    rwa [ObjectStore.rowsAt_congr (hsame key' (ObjectStore.mem_listObjects.mp hkey').2)]
  refine ⟨ht.pruned.compaction hall fun _ => Int64.le_refl _,
    ht.unpruned.compaction hall' fun hon => absurd (hon.symm.trans ht.off) (by decide), ht.off, fun key hkey => ?_,
    ht.pruned.bounded (fun h row hrow => (hrows h row).mpr hrow) ht.bounded, fun h hnothing => ?_⟩
  · rw [hl0 u key hkey, hl0 t key hkey, ht.l0 key hkey]
  · have hbefore : NothingToPrune t h :=
      hnothing.mono rfl (Int64.le_refl _) fun row hrow => (hrows h row).mpr hrow
    have hsame := ht.same h hbefore
    by_cases hh : h = entityHash8 R entityID
    · subst hh
      refine hsame.compaction fun merged hmerged => ?_
      have hmem : ∀ row ∈ sortBy compare Row.frag merged, belongs R entityID row = true ∧
          0 < row.systemTime ∧ row ∈ t.store.tierRows .l0 (entityHash8 R entityID) := by
        intro row hrow
        obtain ⟨hbelongs, key, hkey, -, hin⟩ := (mem_readEntityRows hmerged).mp ((sortBy_perm merged).mem_iff.mp hrow)
        exact ⟨hbelongs, ht.pruned.pos key row hin, ObjectStore.mem_tierRows.mpr
          ⟨key, (ObjectStore.mem_listObjects.mp (mem_compactionKeys.mp hkey)).2, hin⟩⟩
      have hkeep : t.compactor.config.prune (sortBy compare Row.frag merged) = sortBy compare Row.frag merged :=
        CompactionConfig.prune_eq_self (weaklyAscending_sortBy merged)
          (fun row hrow => of_decide_eq_true (Bool.and_eq_true_iff.mp (hmem row hrow).1).1)
          (fun row hrow => (hmem row hrow).2.1) fun hon row hrow row' hrow' =>
            hbefore hon row (hmem row hrow).2.2 row' (hmem row' hrow').2.2
      rw [hkeep, CompactionConfig.prune, ht.off, Bool.false_and, if_neg Bool.false_ne_true]
    · intro tier key hpre
      rw [hother u hh hpre, hother t hh hpre, hsame tier key hpre]

theorem Twins.step (ht : Twins t u) {i : ServiceStep} (hi : i.Modest R t) : Twins (t.step R i) (u.step R i) := by
  cases i with
  | upload p sound => exact ht.upload sound hi.1 hi.2
  | asOf q =>
    rw [QueryService.step, QueryService.step]
    split
    · exact ht
    · exact ⟨ht.pruned, ht.unpruned, ht.off, ht.l0, ht.bounded.observe hi, ht.same⟩
  | range q => exact ht
  | inferHorizon =>
    have hle := horizon_le_inferHorizon t.compactor t.frontier
    refine ⟨ht.pruned.mono hle, ht.unpruned, ?_, ht.l0, ht.bounded.inferHorizon, fun h hnothing => ?_⟩
    · exact (inferHorizon_frame u.compactor u.frontier).2.2.trans ht.off
    · exact ht.same h (hnothing.mono (inferHorizon_frame t.compactor t.frontier).2.2 hle fun row hrow => hrow)
  | compaction f entityID => exact ht.compaction hi

/-- **Every history of modest steps.** -/
theorem Twins.foldl (ht : Twins t u) {steps : List ServiceStep}
    (hsteps : Along (QueryService.step R) (fun t i => i.Modest R t) t steps) :
    Twins (steps.foldl (QueryService.step R) t) (steps.foldl (QueryService.step R) u) := by
  refine Along.foldl_rel (fun t u i ht hi => ?_) hsteps ht
  exact Twins.step ht hi

theorem twins_new (config : CompactionConfig) (backoffNs : Int64) :
    Twins (.new config backoffNs) (.new { config with enableDominancePruning := false } backoffNs) := by
  refine ⟨prunedStore_empty, prunedStore_empty, ?_, fun key _ => rfl, ⟨Int64.le_refl _, fun hpos => ?_, .inl ?_⟩,
    fun h _ tier key _ => rfl⟩
  · rfl
  · exact absurd hpos Int64.lt_irrefl
  · rw [QueryService.new, ← floor_eq_horizon_new]
    exact Int64.le_refl _

/-- **The horizon never retreats nor goes below the floor.  In every history of modest steps**, a query of `AsOf` at
or above the floor that is not further behind the newest row than the backoff is answered as without pruning, if no two
rows of its entity tie and `MaxL0Files` is not exceeded; and so is `Range` where there is nothing to prune. -/
theorem inferred_horizon_honours_backoff (r : Resolver) (config : CompactionConfig) (backoffNs : Int64)
    (steps : List ServiceStep) :
    (∀ before after, steps = before ++ after →
      (newL1Compactor config backoffNs).operatorFloor ≤
        (before.foldl (QueryService.step r.runtime) (.new config backoffNs)).compactor.horizon ∧
      (before.foldl (QueryService.step r.runtime) (.new config backoffNs)).compactor.horizon ≤
        (steps.foldl (QueryService.step r.runtime) (.new config backoffNs)).compactor.horizon) ∧
    (Along (QueryService.step r.runtime) (fun t i => i.Modest r.runtime t) (.new config backoffNs) steps →
      ∀ t u, t = steps.foldl (QueryService.step r.runtime) (.new config backoffNs) →
        u = steps.foldl (QueryService.step r.runtime)
          (.new { config with enableDominancePruning := false } backoffNs) →
        (∀ q : AsOfQuery, (newL1Compactor config backoffNs).operatorFloor ≤ q.txTimeNs →
          (∀ key ∈ t.store.keys, ∀ row ∈ t.store.rowsAt key,
            row.systemTime.toInt - backoffNs.toInt ≤ q.txTimeNs.toInt) →
          NoTies (storedRows r.runtime t.store q.entityID) →
          (t.store.listObjects (tierPrefix .l0 (entityHash8 r.runtime q.entityID))).length ≤ r.config.maxL0Files →
            r.asOf .none t.store q = r.asOf .none u.store q) ∧
        ∀ q : RangeQuery, NothingToPrune t (entityHash8 r.runtime q.entityID) →
          r.range .none t.store q = r.range .none u.store q) := by
  refine ⟨?_, ?_⟩
  · rintro before after rfl
    refine ⟨floor_le_horizon config backoffNs before, ?_⟩
    rw [List.foldl_append]
    exact horizon_le_foldl after _
  · rintro hmodest t u rfl rfl
    have ht := (twins_new config backoffNs).foldl hmodest
    obtain ⟨hfloor, hbackoff⟩ := constants_foldl (R := r.runtime) steps (.new config backoffNs)
    refine ⟨fun q htx hnewest hties hlen => ?_, fun q hnothing => (ht.same _ hnothing).range_eq.symm⟩
    refine ht.pruned.asOf_eq ht.unpruned ht.l0 hlen hties (ht.bounded.horizon_le_txTime ht.pruned ?_ ?_)
      (Int64.minValue_le _)
    · rw [hfloor]
      exact htx
    · rw [hbackoff, QueryService.new, backoffNs_new]
      exact hnewest

end

def samplePartition (row : Row) : L0Partition := ⟨row.entityIDHash, row.systemTime, [row]⟩

theorem sound_samplePartition (row : Row) : (samplePartition row).Sound :=
  ⟨List.cons_ne_nil _ _, rfl, fun _ hr => (List.mem_singleton.mp hr) ▸ rfl, List.pairwise_singleton _ _⟩

/-- Three files, a query at the time of the newest row, and a compaction with the horizon it lets infer. -/
def modestHistory : List ServiceStep :=
  [.upload _ (sound_samplePartition (sampleRow 1 0 10)), .upload _ (sound_samplePartition (sampleRow 2 0 10)),
    .upload _ (sound_samplePartition (sampleRow 6 0 10)), .asOf ⟨[0x61], 3, 6⟩, .inferHorizon,
    .compaction .none [0x61]]

set_option maxRecDepth 100000 in
/-- The horizon is 3 and the first row is pruned.  A query at 3 finds the second one; entity `b` has nothing to
prune. -/
theorem inferred_horizon_honours_backoff_in_modest_history :
    sampleResolver.asOf .none (modestHistory.foldl (QueryService.step .sample) (.new ⟨true, 1⟩ 3)).store
        ⟨[0x61], 5, 3⟩ =
      sampleResolver.asOf .none (modestHistory.foldl (QueryService.step .sample) (.new ⟨false, 1⟩ 3)).store
        ⟨[0x61], 5, 3⟩ ∧
    sampleResolver.range .none (modestHistory.foldl (QueryService.step .sample) (.new ⟨true, 1⟩ 3)).store
        ⟨[0x62], 0, 10, 3⟩ =
      sampleResolver.range .none (modestHistory.foldl (QueryService.step .sample) (.new ⟨false, 1⟩ 3)).store
        ⟨[0x62], 0, 10, 3⟩ := by
  have hmodest : Along (QueryService.step .sample) (fun t i => i.Modest .sample t) (.new ⟨true, 1⟩ 3)
      modestHistory := by decide +kernel
  have hties : NoTies (storedRows .sample
      (modestHistory.foldl (QueryService.step .sample) (.new ⟨true, 1⟩ 3)).store [0x61]) := by
    intro a ha b hb _ htime _ _ _ _ _
    have hdistinct : ∀ a ∈ storedList .sample
        (modestHistory.foldl (QueryService.step .sample) (.new ⟨true, 1⟩ 3)).store [0x61],
        ∀ b ∈ storedList .sample (modestHistory.foldl (QueryService.step .sample) (.new ⟨true, 1⟩ 3)).store [0x61],
          a.systemTime = b.systemTime → a.toTriTemporalEvent = b.toTriTemporalEvent := by decide +kernel
    exact hdistinct a (mem_storedList.mpr ha) b (mem_storedList.mpr hb) htime
  obtain ⟨hasOf, hrange⟩ := (inferred_horizon_honours_backoff sampleResolver ⟨true, 1⟩ 3 modestHistory).2 hmodest
    _ _ rfl rfl
  exact ⟨hasOf ⟨[0x61], 5, 3⟩ (by decide) (by decide +kernel) hties (by decide +kernel),
    hrange ⟨[0x62], 0, 10, 3⟩ (by decide +kernel)⟩

/-- Three files, a query in the far future, and a compaction with the horizon it lets infer. -/
def farFutureHistory : List ServiceStep :=
  [.upload _ (sound_samplePartition (sampleRow 1 20 30)), .upload _ (sound_samplePartition (sampleRow 5 0 10)),
    .upload _ (sound_samplePartition (sampleRow 6 0 10)), .asOf ⟨[0x61], 3, 100⟩, .inferHorizon,
    .compaction .none [0x61]]

set_option maxRecDepth 100000 in
/-- The horizon is 90, after every row, and a query at 5, not further behind the newest row than the backoff of 10,
does not find the row of time 5. -/
theorem far_future_query_prunes_recent_row :
    (farFutureHistory.foldl (QueryService.step .sample) (.new ⟨true, 1⟩ 10)).compactor.horizon = 90 ∧
      (∀ key ∈ (farFutureHistory.foldl (QueryService.step .sample) (.new ⟨true, 1⟩ 10)).store.keys,
        ∀ row ∈ (farFutureHistory.foldl (QueryService.step .sample) (.new ⟨true, 1⟩ 10)).store.rowsAt key,
          row.systemTime.toInt - (10 : Int64).toInt ≤ (5 : Int64).toInt) ∧
      sampleResolver.asOf .none (farFutureHistory.foldl (QueryService.step .sample) (.new ⟨true, 1⟩ 10)).store
        ⟨[0x61], 3, 5⟩ = .error .entityNotFound ∧
      sampleResolver.asOf .none (farFutureHistory.foldl (QueryService.step .sample) (.new ⟨false, 1⟩ 10)).store
        ⟨[0x61], 3, 5⟩ = .ok (sampleRow 5 0 10).toTriTemporalEvent := by
  decide +kernel

end Sovereign.Database

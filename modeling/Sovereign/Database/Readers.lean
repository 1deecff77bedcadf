import Sovereign.Database.Layout

/-!
# Readers and compactions

What a reader can tell of the distribution of rows over files.

* `asOf_eq_of_stored_eq` — two stores with the same rows give the same answers, if no two rows tie;
* `compaction_is_invisible_iff` — `AsOf` is a function of the stored rows **iff** no two of them tie, that is, have
  one system time and a common valid time; and a compaction that overwrites no L1 file keeps the stored rows.
-/

namespace Sovereign.Database

open Lib Sync

/-! ### Ties -/

/-- No two different rows with the same system time are valid at the same time. -/
def NoTies (S : Set Row) : Prop :=
  ∀ a ∈ S, ∀ b ∈ S, 0 < a.systemTime → a.systemTime = b.systemTime →
    ∀ v, a.validTimeStart ≤ v → v < a.validTimeEnd → b.validTimeStart ≤ v → v < b.validTimeEnd →
      a.toTriTemporalEvent = b.toTriTemporalEvent

section
variable {r : Resolver} {s s' : ObjectStore} {q : AsOfQuery}

/-- **The answer depends on the set of stored rows only**, if no two of them tie. -/
theorem asOf_eq_of_stored_eq (hlayout : Layout r.runtime s q.entityID) (hlayout' : Layout r.runtime s' q.entityID)
    (hcap : WithinCap r.config .none s (entityHash8 r.runtime q.entityID) q.txTimeNs)
    (hcap' : WithinCap r.config .none s' (entityHash8 r.runtime q.entityID) q.txTimeNs)
    (hrows : storedRows r.runtime s q.entityID = storedRows r.runtime s' q.entityID)
    (hties : NoTies (storedRows r.runtime s q.entityID)) : r.asOf .none s q = r.asOf .none s' q := by
  by_cases hid : q.entityID = []
  · simp [Resolver.asOf, hid]
  have hstored : r.stored s' q = r.stored s q := by rw [Resolver.stored, Resolver.stored, hrows]
  have hfiles : (scanKeys r.config .none s (entityHash8 r.runtime q.entityID) q.txTimeNs).foldl
        (scanStep r .none s q) none =
      (scanKeys r.config .none s' (entityHash8 r.runtime q.entityID) q.txTimeNs).foldl
        (scanStep r .none s' q) none := by
    have hscan : IsLatest TriTemporalEvent.systemTime (r.stored s q) _ :=
      isLatest_durable.congr_pos fun ev hpos => stored_iff_durable hlayout hcap (fun _ => rfl) hpos
    have hscan' : IsLatest TriTemporalEvent.systemTime (r.stored s' q) _ :=
      isLatest_durable.congr_pos fun ev hpos => stored_iff_durable hlayout' hcap' (fun _ => rfl) hpos
    rw [hstored] at hscan'
    refine hscan.unique hscan' ?_
    rintro _ ⟨a, ha, hadm, rfl⟩ _ ⟨b, hb, hadm', rfl⟩ hpos htime
    obtain ⟨-, hlo, hhi⟩ := admitsTimes_iff.mp hadm
    obtain ⟨-, hlo', hhi'⟩ := admitsTimes_iff.mp hadm'
    exact hties a ha b hb hpos htime q.validTimeNs hlo hhi hlo' hhi'
  have hdom : r.dominant .none s q = r.dominant .none s' q := by rw [Resolver.dominant, Resolver.dominant, hfiles]
  rw [asOf_eq_of_dominant hid, asOf_eq_of_dominant hid, hdom]

end

/-! ### A layout that lets a given row win -/

section
variable {R : Runtime} {entityID : EntityID} {rows : List Row} {x : Row} {ev : TriTemporalEvent} {q : AsOfQuery}

/-- All rows in one L0 file, and one of them in an L1 file too. -/
def favouring (h : Hash8) (x : Row) (rows : List Row) : ObjectStore :=
  AList.insert (l1KeyFor h x.systemTime) (.arrow [x])
    (AList.insert (l0KeyFor h (firstSysTime (sortBy compare Row.frag rows))) (.arrow (sortBy compare Row.frag rows)) ∅)

theorem l0KeyFor_ne_l1KeyFor {h h' : Hash8} {m m' : Int64} : l0KeyFor h m ≠ l1KeyFor h' m' := by
  intro heq
  cases (objectKey_injective heq).1

theorem keys_favouring (h : Hash8) :
    (favouring h x rows).keys =
      [l1KeyFor h x.systemTime, l0KeyFor h (firstSysTime (sortBy compare Row.frag rows))] := by
  rw [favouring, AList.keys_insert, AList.keys_insert]
  simp [l0KeyFor_ne_l1KeyFor]

variable (rows) in
theorem listObjects_favouring (h : Hash8) :
    (favouring h x rows).listObjects (tierPrefix .l1 h) = [l1KeyFor h x.systemTime] ∧
      (favouring h x rows).listObjects (tierPrefix .l0 h) =
        [l0KeyFor h (firstSysTime (sortBy compare Row.frag rows))] ∧
      (favouring h x rows).listObjects (tierPrefix .compaction h) = [] := by
  have hpre : ∀ (t t' : Tier) (m : Int64), (tierPrefix t h).isPrefixOf (objectKey t' h m) = decide (t = t') := by
    intro t t' m
    rw [Bool.eq_iff_iff, List.isPrefixOf_iff_prefix, tierPrefix_isPrefix_iff, decide_eq_true_iff]
    simp
  refine ⟨?_, ?_, ?_⟩ <;>
    simp [ObjectStore.listObjects, keys_favouring, l1KeyFor, l0KeyFor, hpre, sortStrings, sortBy]

theorem scanKeys_favouring (c : ResolverConfig) (h : Hash8) (txTimeNs : Int64) :
    scanKeys c .none (favouring h x rows) h txTimeNs =
      [l1KeyFor h x.systemTime, l0KeyFor h (firstSysTime (sortBy compare Row.frag rows))] := by
  obtain ⟨hl1, hl0, hmanifests⟩ := listObjects_favouring (x := x) rows h
  have htail : tailKeys c .none (favouring h x rows) h txTimeNs =
      [l0KeyFor h (firstSysTime (sortBy compare Row.frag rows))] := by
    simp [tailKeys, loadSupersededL0Keys, hl0, hmanifests]
  have hcap : ∀ key : ObjectKey, capTail c [key] = [key] := by
    intro key
    rw [capTail, if_neg]
    simp only [List.length_singleton]
    omega
  have hgt : ∀ m m' : Int64, compare (l1KeyFor h m) (l0KeyFor h m') = .gt := fun m m' => rfl
  rw [scanKeys, htail, hcap, hl1]
  simp [sortStrings, sortBy, hgt]

theorem rowsAt_favouring (h : Hash8) :
    (favouring h x rows).rowsAt (l1KeyFor h x.systemTime) = [x] ∧
      (favouring h x rows).rowsAt (l0KeyFor h (firstSysTime (sortBy compare Row.frag rows))) =
        sortBy compare Row.frag rows := by
  refine ⟨ObjectStore.rowsAt_of_lookup ?_, ObjectStore.rowsAt_of_lookup ?_⟩
  · rw [favouring, AList.lookup_insert]
  · rw [favouring, AList.lookup_insert_ne l0KeyFor_ne_l1KeyFor, AList.lookup_insert]

theorem storedRows_favouring (hrows : ∀ row ∈ rows, belongs R entityID row = true) (hx : x ∈ rows) :
    storedRows R (favouring (entityHash8 R entityID) x rows) entityID = {row | row ∈ rows} := by
  obtain ⟨hl1, hl0, -⟩ := listObjects_favouring (x := x) rows (entityHash8 R entityID)
  obtain ⟨hatl1, hatl0⟩ := rowsAt_favouring (x := x) (entityHash8 R entityID)
  ext row
  constructor
  · rintro ⟨-, t, ht, key, hkey, hrow⟩
    rcases List.mem_cons.mp ht with rfl | ht
    · rw [hl0, List.mem_singleton] at hkey
      rw [hkey, hatl0] at hrow
      exact (sortBy_perm _).mem_iff.mp hrow
    · rw [List.mem_singleton] at ht
      subst ht
      rw [hl1, List.mem_singleton] at hkey
      rw [hkey, hatl1, List.mem_singleton] at hrow
      rw [hrow]
      exact hx
  · intro hrow
    refine ⟨hrows row hrow, .l0, by decide, _, by rw [hl0]; exact List.mem_singleton_self _, ?_⟩
    rw [hatl0]
    exact (sortBy_perm _).mem_iff.mpr hrow

theorem layout_favouring (hrows : ∀ row ∈ rows, belongs R entityID row = true) :
    Layout R (favouring (entityHash8 R entityID) x rows) entityID := by
  obtain ⟨hl1, hl0, hmanifests⟩ := listObjects_favouring (x := x) rows (entityHash8 R entityID)
  obtain ⟨hatl1, hatl0⟩ := rowsAt_favouring (x := x) (entityHash8 R entityID)
  constructor
  · intro t ht key hkey m hm row hrow
    rcases List.mem_cons.mp ht with rfl | ht
    · rw [hl0, List.mem_singleton] at hkey
      subst hkey
      rw [hatl0] at hrow
      rw [eq_of_mem_parseFirstSysFromKey hm]
      refine firstSysTime_le (weaklyAscending_sortBy _) (fun r hr => (?_ : r.entityIDHash = entityHash16 R entityID)) hrow
      have hbelongs := hrows r ((sortBy_perm _).mem_iff.mp hr)
      exact of_decide_eq_true (Bool.and_eq_true_iff.mp hbelongs).1
    · rw [List.mem_singleton] at ht
      subst ht
      rw [hl1, List.mem_singleton] at hkey
      subst hkey
      rw [hatl1, List.mem_singleton] at hrow
      rw [eq_of_mem_parseFirstSysFromKey hm, hrow]
      exact UInt64.le_refl _
  · intro mk hmk
    rw [hmanifests] at hmk
    cases hmk

/-- A slot at the transaction time of a query stays. -/
theorem foldl_liveStep_of_le (hle : q.txTimeNs ≤ ev.systemTime)
    (evs : List TriTemporalEvent) : evs.foldl (liveStep q) (some ev) = some ev := by
  induction evs with
  | nil => rfl
  | cons ev' evs ih =>
    rw [List.foldl_cons, liveStep]
    split
    · next hadm =>
      rw [later, if_neg]
      · exact ih
      · exact Int64.not_lt.mpr (Int64.le_trans (admitsTimes_iff.mp hadm).1 hle)
    · exact ih

theorem scanStep_of_le {r : Resolver} {f : QueryFaults} {s : ObjectStore}
    (hle : q.txTimeNs ≤ ev.systemTime) (key : ObjectKey) : scanStep r f s q (some ev) key = some ev := by
  unfold scanStep
  cases fileRows r.config f s q.txTimeNs key with
  | none => rfl
  | some rows =>
    have hfile := isLatest_scanFile (R := r.runtime) (q := q) rows
    cases hfound : scanFile r.runtime q rows with
    | none => simp [laterOf, hfound]
    | some found =>
      obtain ⟨⟨row, -, hadm, rfl⟩, -⟩ := hfile.mem found hfound
      have hlate : ¬ ev.systemTime < row.systemTime :=
        Int64.not_lt.mpr (Int64.le_trans (admitsTimes_iff.mp (admits_iff.mp hadm).2).1 hle)
      simp [laterOf, hfound, later, slotTime, hlate]

/-- **The row in the L1 file wins** against every row of its time. -/
theorem asOf_favouring {r : Resolver} (hrows : ∀ row ∈ rows, belongs r.runtime q.entityID row = true)
    (hx : x ∈ rows) (hid : q.entityID ≠ []) (hpos : 0 < x.systemTime) (htx : q.txTimeNs = x.systemTime)
    (hlo : x.validTimeStart ≤ q.validTimeNs) (hhi : q.validTimeNs < x.validTimeEnd) :
    r.asOf .none (favouring (entityHash8 r.runtime q.entityID) x rows) q = .ok x.toTriTemporalEvent := by
  obtain ⟨hatl1, -⟩ := rowsAt_favouring (x := x) (entityHash8 r.runtime q.entityID)
  have hadm : q.admits r.runtime x = true :=
    admits_iff.mpr ⟨hrows x hx, admitsTimes_iff.mpr ⟨htx ▸ Int64.le_refl _, hlo, hhi⟩⟩
  have hskip : r.config.skips q.txTimeNs (l1KeyFor (entityHash8 r.runtime q.entityID) x.systemTime) = false := by
    rw [ResolverConfig.skips, l1KeyFor, parseFirstSysFromKey_objectKey,
      if_neg (Int64.not_lt.mpr (Int64.le_of_lt hpos)), htx]
    simp [Int64.lt_irrefl]
  have hl1 : scanStep r .none (favouring (entityHash8 r.runtime q.entityID) x rows) q none
      (l1KeyFor (entityHash8 r.runtime q.entityID) x.systemTime) = some x.toTriTemporalEvent := by
    rw [scanStep, fileRows_of_not_skips hskip rfl (hatl1.symm ▸ List.mem_singleton_self x), hatl1]
    simp [scanFile, scanRecordBatch, hadm, Int64.not_le.mpr hpos, laterOf, later, slotTime, hpos]
  have hdom : r.dominant .none (favouring (entityHash8 r.runtime q.entityID) x rows) q =
      some x.toTriTemporalEvent := by
    have hle : q.txTimeNs ≤ x.systemTime := htx ▸ Int64.le_refl _
    rw [Resolver.dominant, scanKeys_favouring, List.foldl_cons, hl1, List.foldl_cons, scanStep_of_le hle,
      List.foldl_nil, foldl_liveStep_of_le hle]
  rw [asOf_eq_of_dominant hid, hdom]

end

/-! ### What a compaction keeps -/

section
variable {R : Runtime} {c : CompactionConfig} {f : CompactionFaults} {s : ObjectStore} {entityID : EntityID}

/-- The row is one of the entity in an L0 file. -/
def InL0 (R : Runtime) (s : ObjectStore) (entityID : EntityID) (row : Row) : Prop :=
  belongs R entityID row = true ∧ ∃ key ∈ s.listObjects (tierPrefix .l0 (entityHash8 R entityID)), row ∈ s.rowsAt key

/-- The L1 file that bears the earliest time of the entity's L0 rows, if there is one, has no rows that are not
in L0 too. -/
def L1Kept (R : Runtime) (s : ObjectStore) (entityID : EntityID) : Prop :=
  ∀ first, InL0 R s entityID first →
    (∀ row, InL0 R s entityID row → first.systemTime.toUInt64 ≤ row.systemTime.toUInt64) →
    ∀ old ∈ s.rowsAt (l1KeyFor (entityHash8 R entityID) first.systemTime), belongs R entityID old = true →
      InL0 R s entityID old

variable {row first : Row} {rows : List Row}

theorem Merges.mem_iff_inL0 (hm : Merges R c f s entityID (entityHash8 R entityID) first rows)
    (hprune : c.enableDominancePruning = false)
    (hread : ∀ key ∈ s.listObjects (tierPrefix .l0 (entityHash8 R entityID)), f.read key = .none) :
    row ∈ rows ↔ InL0 R s entityID row := by
  rw [hm.mem_rows hprune]
  refine and_congr_right fun _ => exists_congr fun key => and_congr_right fun hkey => ?_
  simp [hread key hkey]

theorem Merges.first_le (hm : Merges R c f s entityID (entityHash8 R entityID) first rows)
    (hprune : c.enableDominancePruning = false) (hrow : row ∈ rows) :
    first.systemTime.toUInt64 ≤ row.systemTime.toUInt64 := by
  have hbelongs : ∀ row ∈ rows, row.entityIDHash = entityHash16 R entityID := fun row hrow =>
    of_decide_eq_true (Bool.and_eq_true_iff.mp ((hm.mem_rows hprune).mp hrow).1).1
  obtain ⟨⟨merged, hmerged, hrows⟩, hhead⟩ := hm
  rw [CompactionConfig.prune, hprune, Bool.false_and, if_neg Bool.false_ne_true] at hrows
  have hsorted : WeaklyAscending compare Row.frag rows := hrows ▸ weaklyAscending_sortBy merged
  cases rows with
  | nil => cases hhead
  | cons row₀ rest =>
    cases hhead
    exact firstSysTime_le hsorted hbelongs hrow

/-- A line of the manifest beside the L1 file is an L0 file, with the rows it had. -/
theorem mem_of_manifest_line {h : Hash8} {m : Int64} {key : ObjectKey} {obj : StoredObject}
    (hkey : key ∈ (parseManifest (buildManifest (l1KeyFor h m) (compactionKeys s h))).2)
    (hrow : row ∈ ObjectStore.rowsAt (s.insert (l1KeyFor h m) obj) key) :
    key ∈ s.listObjects (tierPrefix .l0 h) ∧ row ∈ s.rowsAt key := by
  rw [parseManifest_compaction] at hkey
  have hkey := mem_compactionKeys.mp hkey
  have hne : key ≠ l1KeyFor h m := ne_of_prefix (ObjectStore.mem_listObjects.mp hkey).2 (by decide)
  rw [ObjectStore.rowsAt_insert_of_ne hne] at hrow
  exact ⟨hkey, hrow⟩

theorem exists_l1_of_mem {h : Hash8} {m : Int64} (hrow : row ∈ rows) :
    ∃ key ∈ ObjectStore.listObjects (s.insert (l1KeyFor h m) (.arrow rows)) (tierPrefix .l1 h),
      row ∈ ObjectStore.rowsAt (s.insert (l1KeyFor h m) (.arrow rows)) key :=
  ⟨_, ObjectStore.mem_listObjects_insert.mpr ⟨.inl rfl, List.prefix_append _ _⟩,
    by rwa [ObjectStore.rowsAt_insert_self]⟩

/-- The L1 file fits the layout and adds no row. -/
theorem Layout.l1 (hlayout : Layout R s entityID)
    (hm : Merges R c f s entityID (entityHash8 R entityID) first rows)
    (hprune : c.enableDominancePruning = false)
    (hread : ∀ key ∈ s.listObjects (tierPrefix .l0 (entityHash8 R entityID)), f.read key = .none)
    (hkept : L1Kept R s entityID) :
    Layout R (s.insert (l1KeyFor (entityHash8 R entityID) first.systemTime) (.arrow rows)) entityID ∧
      storedRows R (s.insert (l1KeyFor (entityHash8 R entityID) first.systemTime) (.arrow rows)) entityID =
        storedRows R s entityID := by
  have hmem : ∀ row, row ∈ rows ↔ InL0 R s entityID row := fun row =>
    hm.mem_iff_inL0 hprune hread
  have hfirst : ∀ row ∈ rows, first.systemTime.toUInt64 ≤ row.systemTime.toUInt64 := fun row hrow =>
    hm.first_le hprune hrow
  have hold : ∀ row ∈ s.rowsAt (l1KeyFor (entityHash8 R entityID) first.systemTime),
      belongs R entityID row = true → row ∈ rows := fun row hrow hbelongs =>
    (hmem row).mpr (hkept first ((hmem first).mp (List.mem_of_mem_head? hm.head))
      (fun row hrow => hfirst row ((hmem row).mpr hrow)) row hrow hbelongs)
  refine ⟨hlayout.insert_arrow (by decide) hfirst nofun (fun _ => hold), ?_⟩
  refine Set.Subset.antisymm ?_ (storedRows_subset_insert fun row hrow hbelongs =>
    mem_storedRows_insert (by decide) (hold row hrow hbelongs) hbelongs)
  rintro row ⟨hbelongs, t, ht, key, hkey, hrow⟩
  rcases cases_of_mem_listObjects_insert hkey with rfl | ⟨hne, hkey⟩
  · rw [ObjectStore.rowsAt_insert_self] at hrow
    obtain ⟨-, key, hkey, hrow⟩ := (hmem row).mp hrow
    exact ⟨hbelongs, .l0, by decide, key, hkey, hrow⟩
  · rw [ObjectStore.rowsAt_insert_of_ne hne] at hrow
    exact ⟨hbelongs, t, ht, key, hkey, hrow⟩

/-- **A compaction keeps the layout and the stored rows of its entity**, if all files are read and no L1 file is
lost. -/
theorem Layout.compaction (hlayout : Layout R s entityID) (hprune : c.enableDominancePruning = false)
    (hread : ∀ key ∈ s.listObjects (tierPrefix .l0 (entityHash8 R entityID)), f.read key = .none)
    (hkept : L1Kept R s entityID) :
    Layout R (compaction R c f s entityID (entityHash8 R entityID)).1 entityID ∧
      storedRows R (Database.compaction R c f s entityID (entityHash8 R entityID)).1 entityID =
        storedRows R s entityID := by
  rcases compaction_store_cases (R := R) (c := c) (f := f) (s := s)
    (h := entityHash8 R entityID) with heq | ⟨first, rows, hm, heq⟩ | ⟨first, rows, hw⟩
  · rw [heq]
    exact ⟨hlayout, rfl⟩
  · rw [heq]
    exact hlayout.l1 hm hprune hread hkept
  · obtain ⟨hl1, hstored⟩ := hlayout.l1 hw.merges hprune hread hkept
    rw [hw.store, storedRows_insert_manifest]
    refine ⟨hl1.insert_manifest fun _ key hkey row hrow hbelongs => ?_, hstored⟩
    obtain ⟨hkey, hrow⟩ := mem_of_manifest_line hkey hrow
    exact exists_l1_of_mem ((hw.merges.mem_iff_inL0 hprune hread).mpr ⟨hbelongs, key, hkey, hrow⟩)

/-- The two stores give the same answers for the entity, where the file cap is not exceeded. -/
def SameAnswers (R : Runtime) (s s' : ObjectStore) (entityID : EntityID) : Prop :=
  ∀ (r : Resolver) (q : AsOfQuery), r.runtime = R → q.entityID = entityID →
    WithinCap r.config .none s (entityHash8 R entityID) q.txTimeNs →
    WithinCap r.config .none s' (entityHash8 R entityID) q.txTimeNs → r.asOf .none s q = r.asOf .none s' q

def storedList (R : Runtime) (s : ObjectStore) (entityID : EntityID) : List Row :=
  ([Tier.l0, Tier.l1].flatMap fun t =>
    (s.listObjects (tierPrefix t (entityHash8 R entityID))).flatMap s.rowsAt).filter (belongs R entityID)

theorem mem_storedList : row ∈ storedList R s entityID ↔ row ∈ storedRows R s entityID := by
  rw [storedList, List.mem_filter, List.mem_flatMap]
  simp only [List.mem_flatMap]
  exact and_comm

/-- The cap of a query that scans all files. -/
theorem withinCap_of_length_le {c : ResolverConfig} {f : QueryFaults} {h : Hash8} {txTimeNs : Int64}
    (hlen : (s.listObjects (tierPrefix .l0 h)).length ≤ c.maxL0Files) : WithinCap c f s h txTimeNs := by
  have hle : (tailKeys c f s h txTimeNs).length ≤ (s.listObjects (tierPrefix .l0 h)).length :=
    List.length_filter_le _ _
  rw [WithinCap]
  omega

/-- Two L0 files, each with a row at time 3. -/
def tiedFiles : ObjectStore :=
  AList.insert (l0KeyFor sampleHash 1) (.arrow [sampleRow 1 0 10, sampleRow 3 0 10])
    (AList.insert (l0KeyFor sampleHash 2) (.arrow [sampleRow 2 0 10, sampleRow 3 5 10]) ∅)

end

end Sovereign.Database

import Sovereign.Database.Skip

/-!
# What pruning compactions leave for readers

A compaction merges all L0 files of a hash again, also those that earlier compactions have merged, so what it drops it
drops from the full history of the hash.

* `PrunedStore horizon` — what compactions with horizons up to `horizon` leave: each row of an L0 file that a manifest
  lists is in an L1 file, or one is that covers it, is later and not after `horizon` (`Represents`).  Uploads keep it
  (`PrunedStore.upload`), and compactions, whether they prune or not (`PrunedStore.compaction`).
* `PrunedStore.isLatest` — so a query at or above the horizon finds the latest of all rows that were uploaded.
* `PrunedStore.asOf_eq` — two such stores with the same L0 files give the same answers of `AsOf`.

`Range` lists the rows that pruning drops; `SameUnder` is what it takes to keep its answers.
-/

namespace Sovereign.Database

open Lib Sync MemTable

/-! ### Rows of a tier -/

def ObjectStore.tierRows (s : ObjectStore) (t : Tier) (h : Hash8) : List Row :=
  (s.listObjects (tierPrefix t h)).flatMap s.rowsAt

section
variable {s s' : ObjectStore} {t t' : Tier} {h h' : Hash8} {m : Int64} {row : Row} {rows : List Row}
  {key : ObjectKey}

theorem ObjectStore.mem_tierRows : row ∈ s.tierRows t h ↔ ∃ key, tierPrefix t h <+: key ∧ row ∈ s.rowsAt key := by
  rw [ObjectStore.tierRows, List.mem_flatMap]
  constructor
  · rintro ⟨key, hkey, hrow⟩
    exact ⟨key, (ObjectStore.mem_listObjects.mp hkey).2, hrow⟩
  · rintro ⟨key, hpre, hrow⟩
    exact ⟨key, mem_listObjects_of_mem_rowsAt hrow hpre, hrow⟩

theorem ObjectStore.rowsAt_congr (hkey : s'.lookup key = s.lookup key) : s'.rowsAt key = s.rowsAt key := by
  rw [ObjectStore.rowsAt, ObjectStore.rowsAt, hkey]

theorem ObjectStore.readRows_congr {fault : ReadFault} (hkey : s'.lookup key = s.lookup key) :
    s'.readRows key fault = s.readRows key fault := by
  unfold ObjectStore.readRows
  rw [hkey]

theorem ObjectStore.readLines_congr {fails : Bool} (hkey : s'.lookup key = s.lookup key) :
    s'.readLines key fails = s.readLines key fails := by
  unfold ObjectStore.readLines
  rw [hkey]

theorem ObjectStore.listObjects_congr {pre : Bytes} (hsame : ∀ key, pre <+: key → s'.lookup key = s.lookup key) :
    s'.listObjects pre = s.listObjects pre := by
  refine sortBy_congr ((List.perm_ext_iff_of_nodup (s'.keys_nodup.filter _) (s.keys_nodup.filter _)).mpr fun key => ?_)
  rw [List.mem_filter, List.mem_filter, ← AList.mem_keys, ← AList.mem_keys, ← AList.lookup_isSome, ← AList.lookup_isSome]
  refine and_congr_left fun hpre => ?_
  rw [hsame key (List.isPrefixOf_iff_prefix.mp hpre)]

theorem ObjectStore.mem_tierRows_congr (hsame : ∀ key, tierPrefix t h <+: key → s'.lookup key = s.lookup key) :
    row ∈ s'.tierRows t h ↔ row ∈ s.tierRows t h := by
  rw [ObjectStore.mem_tierRows, ObjectStore.mem_tierRows]
  refine exists_congr fun key => and_congr_right fun hpre => ?_
  rw [ObjectStore.rowsAt_congr (hsame key hpre)]

end

/-! ### What compactions leave -/

/-- The row is there itself, or one is that covers it, is later, and is not after the horizon. -/
def Represents (horizon : Int64) (row row' : Row) : Prop :=
  row' = row ∨ row.systemTime < row'.systemTime ∧ row'.systemTime ≤ horizon ∧ row.coveredBy row'.interval = true ∧
    ∀ R entityID, belongs R entityID row = true → belongs R entityID row' = true

/-- A store with files and compactions with horizons up to `horizon`. -/
structure PrunedStore (horizon : Int64) (s : ObjectStore) : Prop where
  timed : Timed horizon s
  pos : ∀ key, ∀ row ∈ s.rowsAt key, 0 < row.systemTime
  fromL0 : ∀ h, ∀ row ∈ s.tierRows .l1 h, row ∈ s.tierRows .l0 h
  listed : ∀ mk lines, s.lookup mk = some (.manifest lines) → ∀ key ∈ (parseManifest lines).2, key ∈ s
  merged : ∀ mk lines, s.lookup mk = some (.manifest lines) → ∀ key ∈ (parseManifest lines).2,
    ∀ h, tierPrefix .l0 h <+: key → ∀ row ∈ s.rowsAt key, ∃ row' ∈ s.tierRows .l1 h, Represents horizon row row'

section
variable {R : Runtime} {c : CompactionConfig} {f : CompactionFaults} {s s' : ObjectStore} {h : Hash8}
  {entityID : EntityID} {horizon horizon' : Int64} {row row' : Row} {rows : List Row} {p : L0Partition}

theorem Represents.mono (hle : horizon ≤ horizon') (hr : Represents horizon row row') : Represents horizon' row row' :=
  hr.imp_right fun ⟨hlt, hbound, hrest⟩ => ⟨hlt, Int64.le_trans hbound hle, hrest⟩

theorem Timed.mono (hle : horizon ≤ horizon') (hs : Timed horizon s) : Timed horizon' s := by
  refine ⟨hs.file, fun mk lines hmk => ?_⟩
  obtain ⟨h, m, heq, hl1, hlisted⟩ := hs.manifest mk lines hmk
  refine ⟨h, m, heq, hl1, fun key hkey => ?_⟩
  obtain ⟨m', hkey, htime⟩ := hlisted key hkey
  exact ⟨m', hkey, htime.imp_right fun hm => Int64.le_trans hm hle⟩

theorem PrunedStore.mono (hle : horizon ≤ horizon') (hs : PrunedStore horizon s) : PrunedStore horizon' s := by
  refine ⟨hs.timed.mono hle, hs.pos, hs.fromL0, hs.listed, fun mk lines hmk key hkey h hpre row hrow => ?_⟩
  obtain ⟨row', hrow', hr⟩ := hs.merged mk lines hmk key hkey h hpre row hrow
  exact ⟨row', hrow', hr.mono hle⟩

theorem prunedStore_empty : PrunedStore horizon ∅ := by
  refine ⟨timed_empty, fun key row hrow => ?_, fun h row hrow => ?_, fun mk lines hmk => ?_, fun mk lines hmk => ?_⟩
  · cases hrow
  · cases hrow
  · cases hmk
  · cases hmk

theorem lt_of_toUInt64_lt {a b : Int64} (hb : 0 ≤ b) (hlt : a.toUInt64 < b.toUInt64) : a < b :=
  Int64.not_le.mp fun hle => UInt64.lt_irrefl _ (UInt64.lt_of_lt_of_le hlt (Int64.toUInt64_le hb hle))

/-- **Every row is represented among those that are kept.**  Of the rows that dominate it, take the last one. -/
theorem CompactionConfig.exists_represents (c : CompactionConfig) (hsorted : WeaklyAscending compare Row.frag rows)
    (hbelongs : ∀ row ∈ rows, belongs R entityID row = true) (hpos : ∀ row ∈ rows, 0 < row.systemTime)
    (hhorizon : c.enableDominancePruning = true → c.pruningHorizonInt64Ns ≤ horizon) (hrow : row ∈ rows) :
    ∃ row' ∈ c.prune rows, Represents horizon row row' := by
  unfold CompactionConfig.prune
  split
  swap
  · exact ⟨row, hrow, .inl rfl⟩
  next hon =>
  obtain ⟨henable, hpos'⟩ := Bool.and_eq_true_iff.mp hon
  rw [dominancePrune_eq_filter hsorted
    (fun r hr => of_decide_eq_true (Bool.and_eq_true_iff.mp (hbelongs r hr)).1) (of_decide_eq_true hpos')]
  by_cases hdom : dominatedIn rows c.pruningHorizonInt64Ns row = true
  swap
  · exact ⟨row, List.mem_filter.mpr ⟨hrow, by simpa using hdom⟩, .inl rfl⟩
  -- the dominating rows, and the last of them
  obtain ⟨d, hd, hdominates⟩ := dominatedIn_iff.mp hdom
  have hne : (rows.filter fun r => dominatedIn [r] c.pruningHorizonInt64Ns row) ≠ [] :=
    List.ne_nil_of_mem (List.mem_filter.mpr ⟨hd, dominatedIn_iff.mpr ⟨d, List.mem_singleton_self d, hdominates⟩⟩)
  obtain ⟨last, hlast⟩ := Option.ne_none_iff_exists'.mp fun hnone =>
    hne (List.argmax_eq_none.mp (hnone : List.argmax (fun r : Row => r.systemTime.toUInt64.toNat) _ = none))
  obtain ⟨hmem, hlastdom⟩ := List.mem_filter.mp (List.argmax_mem hlast)
  obtain ⟨last', hlast', hlt, hle, hlo, hhi⟩ := dominatedIn_iff.mp hlastdom
  obtain rfl := List.mem_singleton.mp hlast'
  refine ⟨last', List.mem_filter.mpr ⟨hmem, ?_⟩, .inr
    ⟨lt_of_toUInt64_lt (Int64.le_of_lt (hpos last' hmem)) hlt, Int64.le_trans hle (hhorizon henable),
      coveredBy_iff.mpr ⟨hlo, hhi⟩, fun R' id hid => ?_⟩⟩
  · rw [Bool.not_eq_true', Bool.eq_false_iff]
    intro hdom'
    obtain ⟨r, hr, hlt', hle', hlo', hhi'⟩ := dominatedIn_iff.mp hdom'
    have hin : r ∈ rows.filter fun r => dominatedIn [r] c.pruningHorizonInt64Ns row :=
      List.mem_filter.mpr ⟨hr, dominatedIn_iff.mpr ⟨r, List.mem_singleton_self r, UInt64.lt_trans hlt hlt', hle',
        Int64.le_trans hlo' hlo, Int64.le_trans hhi hhi'⟩⟩
    have hmax := List.le_of_mem_argmax hin hlast
    exact absurd (UInt64.lt_iff_toNat_lt.mp hlt') (Nat.not_lt.mpr hmax)
  · have hrow' := hbelongs row hrow
    have hlast' := hbelongs last' hmem
    simp only [belongs, Bool.and_eq_true, decide_eq_true_eq] at hid hrow' hlast' ⊢
    exact ⟨hlast'.1.trans (hrow'.1.symm.trans hid.1), hlast'.2.trans (hrow'.2.symm.trans hid.2)⟩

/-- What a compaction writes: its L1 file, and its manifest unless the upload of one of the two fails. -/
structure Compacted (s s' : ObjectStore) (h : Hash8) (m : Int64) (rows : List Row) : Prop where
  other : ∀ key, key ≠ l1KeyFor h m → key ≠ manifestKeyFor h m → s'.lookup key = s.lookup key
  l1 : s'.lookup (l1KeyFor h m) = some (.arrow rows)
  manifest : s'.lookup (manifestKeyFor h m) = s.lookup (manifestKeyFor h m) ∨
    s'.lookup (manifestKeyFor h m) = some (.manifest (buildManifest (l1KeyFor h m) (compactionKeys s h)))

/-- Whatever fails, a compaction leaves the store as it was or is `Compacted`. -/
theorem compaction_compacted (R : Runtime) (c : CompactionConfig) (f : CompactionFaults) (s : ObjectStore)
    (entityID : EntityID) (h : Hash8) :
    (Database.compaction R c f s entityID h).1 = s ∨
      ∃ first merged, readEntityRows R f s entityID (compactionKeys s h) = .ok merged ∧
        (c.prune (sortBy compare Row.frag merged)).head? = some first ∧
        Compacted s (Database.compaction R c f s entityID h).1 h first.systemTime
          (c.prune (sortBy compare Row.frag merged)) := by
  rcases compaction_store_cases (R := R) (c := c) (f := f) (s := s) (h := h) with
    heq | ⟨first, rows, ⟨⟨merged, hmerged, rfl⟩, hhead⟩, heq⟩ | ⟨first, rows, hw⟩
  · exact .inl heq
  · refine .inr ⟨first, merged, hmerged, hhead, fun key hl1 _ => ?_, ?_, .inl ?_⟩
    · rw [heq, AList.lookup_insert_ne hl1]
    · rw [heq, AList.lookup_insert]
    · rw [heq, AList.lookup_insert_ne (Ne.symm l1KeyFor_ne_manifestKeyFor)]
  · obtain ⟨merged, hmerged, rfl⟩ := hw.merged
    exact .inr ⟨first, merged, hmerged, hw.head, fun key hl1 hm => hw.lookup_of_ne hl1 hm, hw.lookup_l1,
      .inr hw.lookup_manifest⟩

section
variable {m : Int64} {key : ObjectKey} (hc : Compacted s s' h m rows)

include hc

theorem Compacted.l0 (hkey : Tier.l0.dir <+: key) : s'.lookup key = s.lookup key :=
  hc.other key (ne_of_dir hkey (by decide)) (ne_of_dir hkey (by decide))

theorem Compacted.otherHash {t : Tier} {h' : Hash8} (hh : h' ≠ h) (hkey : tierPrefix t h' <+: key) :
    s'.lookup key = s.lookup key := by
  refine hc.other key (fun heq => ?_) (fun heq => ?_)
  · subst heq
    exact hh (tierPrefix_isPrefix_iff.mp hkey).2
  · subst heq
    exact hh (tierPrefix_isPrefix_iff.mp hkey).2

theorem Compacted.rowsAt_cases (hrow : row ∈ s'.rowsAt key) :
    key = l1KeyFor h m ∧ row ∈ rows ∨ row ∈ s.rowsAt key := by
  by_cases hl1 : key = l1KeyFor h m
  · rw [hl1, ObjectStore.rowsAt_of_lookup hc.l1] at hrow
    exact .inl ⟨hl1, hrow⟩
  · right
    by_cases hm : key = manifestKeyFor h m
    · subst hm
      rcases hc.manifest with heq | heq
      · rwa [ObjectStore.rowsAt_congr heq] at hrow
      · have hobj := ObjectStore.lookup_of_mem_rowsAt hrow
        rw [heq] at hobj
        cases hobj
    · rwa [ObjectStore.rowsAt_congr (hc.other key hl1 hm)] at hrow

theorem Compacted.mem_l0Rows {h' : Hash8} : row ∈ s'.tierRows .l0 h' ↔ row ∈ s.tierRows .l0 h' :=
  ObjectStore.mem_tierRows_congr fun _ hpre => hc.l0 (dir_isPrefix_tierPrefix hpre)

/-- **A compaction of a store** with such rows, if it writes a representative of each L0 row. -/
theorem PrunedStore.compacted (hs : PrunedStore horizon s) (htimed : Timed horizon s')
    (hsub : ∀ row ∈ rows, row ∈ s.tierRows .l0 h)
    (hall : ∀ row ∈ s.tierRows .l0 h, ∃ row' ∈ rows, Represents horizon row row') : PrunedStore horizon s' := by
  have hnew : ∀ row ∈ rows, row ∈ s'.tierRows .l1 h := fun row hrow =>
    ObjectStore.mem_tierRows.mpr ⟨l1KeyFor h m, List.prefix_append _ _, by rwa [ObjectStore.rowsAt_of_lookup hc.l1]⟩
  -- a manifest is an old one or lists the files of the compaction
  have hmanifest : ∀ mk lines, s'.lookup mk = some (.manifest lines) → s.lookup mk = some (.manifest lines) ∨
      (parseManifest lines).2 = compactionKeys s h := by
    intro mk lines hmk
    by_cases hl1 : mk = l1KeyFor h m
    · rw [hl1, hc.l1] at hmk
      cases hmk
    · by_cases hm : mk = manifestKeyFor h m
      · subst hm
        rcases hc.manifest with heq | heq
        · exact .inl (heq ▸ hmk)
        · rw [heq] at hmk
          cases hmk
          exact .inr (by rw [parseManifest_compaction])
      · exact .inl (hc.other mk hl1 hm ▸ hmk)
  have hkeep : ∀ key, Tier.l0.dir <+: key → (key ∈ s' ↔ key ∈ s) := fun key hkey => by
    rw [← AList.lookup_isSome, ← AList.lookup_isSome, hc.l0 hkey]
  refine ⟨htimed, fun key row hrow => ?_, fun h' row hrow => ?_, fun mk lines hmk key hkey => ?_,
    fun mk lines hmk key hkey h' hpre row hrow => ?_⟩
  · rcases hc.rowsAt_cases hrow with ⟨-, hrow⟩ | hrow
    · obtain ⟨key', -, hrow⟩ := ObjectStore.mem_tierRows.mp (hsub row hrow)
      exact hs.pos key' row hrow
    · exact hs.pos key row hrow
  · rw [hc.mem_l0Rows]
    obtain ⟨key, hpre, hrow⟩ := ObjectStore.mem_tierRows.mp hrow
    rcases hc.rowsAt_cases hrow with ⟨rfl, hin⟩ | hin
    · obtain ⟨-, rfl⟩ := tierPrefix_isPrefix_iff.mp hpre
      exact hsub row hin
    · exact hs.fromL0 h' row (ObjectStore.mem_tierRows.mpr ⟨key, hpre, hin⟩)
  · rw [hkeep key (dir_of_mem_parseManifest hkey)]
    rcases hmanifest mk lines hmk with hold | hlines
    · exact hs.listed mk lines hold key hkey
    · rw [hlines] at hkey
      exact (ObjectStore.mem_listObjects.mp (mem_compactionKeys.mp hkey)).1
  · rw [ObjectStore.rowsAt_congr (hc.l0 (dir_isPrefix_tierPrefix hpre))] at hrow
    by_cases hh : h' = h
    · subst hh
      obtain ⟨row', hrow', hr⟩ := hall row (ObjectStore.mem_tierRows.mpr ⟨key, hpre, hrow⟩)
      exact ⟨row', hnew row' hrow', hr⟩
    · rcases hmanifest mk lines hmk with hold | hlines
      · obtain ⟨row', hrow', hr⟩ := hs.merged mk lines hold key hkey h' hpre row hrow
        exact ⟨row', (ObjectStore.mem_tierRows_congr fun _ hpre => hc.otherHash hh hpre).mpr hrow', hr⟩
      · rw [hlines] at hkey
        have hpre' := (ObjectStore.mem_listObjects.mp (mem_compactionKeys.mp hkey)).2
        exact absurd (tierPrefix_unique hpre hpre').2 hh

end

/-- **A compaction** that reads all rows under its prefix, pruning up to the horizon or not at all. -/
theorem PrunedStore.compaction (hs : PrunedStore horizon s) (hall : AllMerged R f s entityID h)
    (hhorizon : c.enableDominancePruning = true → c.pruningHorizonInt64Ns ≤ horizon) :
    PrunedStore horizon (Database.compaction R c f s entityID h).1 := by
  have htimed := hs.timed.compaction hall hhorizon
  rcases compaction_compacted R c f s entityID h with heq | ⟨first, merged, hmerged, -, hc⟩
  · rw [heq]
    exact hs
  · have hmem : ∀ row, row ∈ sortBy compare Row.frag merged ↔
        belongs R entityID row = true ∧ ∃ key ∈ compactionKeys s h, f.read key = .none ∧ row ∈ s.rowsAt key :=
      fun row => (sortBy_perm merged).mem_iff.trans (mem_readEntityRows hmerged)
    have hbelongs : ∀ row ∈ sortBy compare Row.frag merged, belongs R entityID row = true := fun row hrow =>
      ((hmem row).mp hrow).1
    have hsorted : WeaklyAscending compare Row.frag (sortBy compare Row.frag merged) := weaklyAscending_sortBy merged
    have hpos : ∀ row ∈ sortBy compare Row.frag merged, 0 < row.systemTime := fun row hrow => by
      obtain ⟨-, key, -, -, hin⟩ := (hmem row).mp hrow
      exact hs.pos key row hin
    refine hs.compacted hc htimed (fun row hrow => ?_) fun row hrow => ?_
    · have hsub := (c.prune_spec hsorted fun row hrow =>
        of_decide_eq_true (Bool.and_eq_true_iff.mp (hbelongs row hrow)).1).1
      obtain ⟨-, key, hkey, -, hin⟩ := (hmem row).mp (hsub.subset hrow)
      exact ObjectStore.mem_tierRows.mpr ⟨key, (ObjectStore.mem_listObjects.mp (mem_compactionKeys.mp hkey)).2, hin⟩
    · obtain ⟨key, hpre, hrow⟩ := ObjectStore.mem_tierRows.mp hrow
      obtain ⟨hid, key', hkey', hread, hrow'⟩ := hall key (mem_listObjects_of_mem_rowsAt hrow hpre) row hrow
      exact c.exists_represents hsorted hbelongs hpos hhorizon
        ((hmem row).mpr ⟨hid, key', mem_compactionKeys.mpr hkey', hread, hrow'⟩)

theorem PrunedStore.upload (hs : PrunedStore horizon s) (hp : p.Sound) (hnew : p.key ∉ s)
    (hpos : ∀ row ∈ p.rows, 0 < row.systemTime) : PrunedStore horizon (s.insert p.key (.arrow p.rows)) := by
  have hlookup : ∀ {key}, key ≠ p.key → (s.insert p.key (.arrow p.rows)).lookup key = s.lookup key :=
    fun hne => AList.lookup_insert_ne hne
  have hempty : s.rowsAt p.key = [] := by
    unfold ObjectStore.rowsAt
    rw [AList.lookup_eq_none.mpr hnew]
  have hmanifest : ∀ mk lines, (s.insert p.key (.arrow p.rows)).lookup mk = some (.manifest lines) →
      s.lookup mk = some (.manifest lines) := by
    intro mk lines hmk
    by_cases heq : mk = p.key
    · rw [heq, AList.lookup_insert] at hmk
      cases hmk
    · rwa [hlookup heq] at hmk
  have hl1 : ∀ {h row}, row ∈ ObjectStore.tierRows (s.insert p.key (.arrow p.rows)) .l1 h ↔ row ∈ s.tierRows .l1 h :=
    ObjectStore.mem_tierRows_congr fun key hpre => hlookup ( ne_of_prefix hpre (by decide))
  refine ⟨hs.timed.insert_partition hp fun row hrow => Int64.le_of_lt (hpos row hrow), fun key row hrow => ?_,
    fun h row hrow => ?_, fun mk lines hmk key hkey => ?_, fun mk lines hmk key hkey h hpre row hrow => ?_⟩
  · by_cases heq : key = p.key
    · rw [heq, ObjectStore.rowsAt_insert_self] at hrow
      exact hpos row hrow
    · rw [ObjectStore.rowsAt_insert_of_ne heq] at hrow
      exact hs.pos key row hrow
  · obtain ⟨key, hpre, hrow⟩ := ObjectStore.mem_tierRows.mp (hs.fromL0 h row (hl1.mp hrow))
    refine ObjectStore.mem_tierRows.mpr ⟨key, hpre, ?_⟩
    rwa [ObjectStore.rowsAt_insert_of_ne]
    rintro rfl
    rw [hempty] at hrow
    cases hrow
  · exact (AList.mem_insert s).mpr (.inr (hs.listed mk lines (hmanifest mk lines hmk) key hkey))
  · have hne : key ≠ p.key := by
      rintro rfl
      exact hnew (hs.listed mk lines (hmanifest mk lines hmk) _ hkey)
    rw [ObjectStore.rowsAt_insert_of_ne hne] at hrow
    obtain ⟨row', hrow', hr⟩ := hs.merged mk lines (hmanifest mk lines hmk) key hkey h hpre row hrow
    exact ⟨row', hl1.mpr hrow', hr⟩

end

/-! ### Answers at or above the horizon -/

def admittedL0 (R : Runtime) (s : ObjectStore) (q : AsOfQuery) : Set TriTemporalEvent :=
  {ev | ∃ row ∈ s.tierRows .l0 (entityHash8 R q.entityID), q.admits R row = true ∧ row.toTriTemporalEvent = ev}

section
variable {r : Resolver} {s s' : ObjectStore} {q : AsOfQuery} {horizon horizon' : Int64}

/-- A row of a scanned file that a query admits is a candidate: the file is not skipped. -/
theorem PrunedStore.mem_durable (hs : PrunedStore horizon s) {key : ObjectKey} {row : Row}
    (hkey : key ∈ scanKeys r.config .none s (entityHash8 r.runtime q.entityID) q.txTimeNs) (hrow : row ∈ s.rowsAt key)
    (hadm : q.admits r.runtime row = true) : row.toTriTemporalEvent ∈ r.durable .none s q := by
  have hskip : r.config.skips q.txTimeNs key = false := by
    obtain ⟨t, h, m, rfl, -, htimes, -⟩ := hs.timed.file key _ (ObjectStore.lookup_of_mem_rowsAt hrow)
    have hle := Int64.le_trans (htimes row hrow).2 (admitsTimes_iff.mp (admits_iff.mp hadm).2).1
    rw [ResolverConfig.skips, parseFirstSysFromKey_objectKey]
    split
    · next heq =>
      split at heq
      · cases heq
      · cases heq
        simp [Int64.not_lt.mpr hle]
    · exact Bool.and_false _
  exact ⟨key, hkey, _, fileRows_of_not_skips hskip rfl hrow, row, hrow, hadm, rfl⟩

/-- **At or above the horizon the files have the latest of all admitted rows**, within the cap. -/
theorem PrunedStore.isLatest (hs : PrunedStore horizon s)
    (hcap : WithinCap r.config .none s (entityHash8 r.runtime q.entityID) q.txTimeNs)
    (hhorizon : (∃ key, s.rowsAt key ≠ []) → horizon ≤ q.txTimeNs) :
    IsLatest TriTemporalEvent.systemTime (admittedL0 r.runtime s q)
      ((scanKeys r.config .none s (entityHash8 r.runtime q.entityID) q.txTimeNs).foldl (scanStep r .none s q) none) := by
  have hlatest := isLatest_durable (r := r) (f := .none) (s := s) (q := q)
  refine ⟨fun ev hev => ?_, ?_⟩
  · obtain ⟨hmem, hpos⟩ := hlatest.mem ev hev
    obtain ⟨row, ⟨hbelongs, t, ht, key, hkey, hrow⟩, htimes, rfl⟩ := durable_subset_stored hmem
    refine ⟨⟨row, ?_, admits_iff.mpr ⟨hbelongs, htimes⟩, rfl⟩, hpos⟩
    have hrow := ObjectStore.mem_tierRows.mpr ⟨key, (ObjectStore.mem_listObjects.mp hkey).2, hrow⟩
    rcases List.mem_cons.mp ht with rfl | ht
    · exact hrow
    · obtain rfl := List.mem_singleton.mp ht
      exact hs.fromL0 _ row hrow
  · rintro _ ⟨row, hrow, hadm, rfl⟩
    obtain ⟨key, hpre, hrow⟩ := ObjectStore.mem_tierRows.mp hrow
    by_cases hsup : key ∈ loadSupersededL0Keys r.config .none s (entityHash8 r.runtime q.entityID) q.txTimeNs
    · obtain ⟨mk, -, lines, hlines, hlisted⟩ := exists_manifest_of_superseded hsup
      obtain ⟨row', hrow', hr⟩ := hs.merged mk lines (lookup_of_listed hlines hlisted) key hlisted _ hpre row hrow
      obtain ⟨l1Key, hpre', hin⟩ := ObjectStore.mem_tierRows.mp hrow'
      have hscan : l1Key ∈ scanKeys r.config .none s (entityHash8 r.runtime q.entityID) q.txTimeNs :=
        mem_scanKeys_of_l1 (mem_listObjects_of_mem_rowsAt hin hpre')
      rcases hr with rfl | ⟨hlt, hle, hcov, hbelongs⟩
      · exact hlatest.le _ (hs.mem_durable hscan hin hadm)
      · -- the representative is admitted too, and later
        obtain ⟨hid, htimes⟩ := admits_iff.mp hadm
        obtain ⟨-, hlo, hhi⟩ := admitsTimes_iff.mp htimes
        obtain ⟨hlo', hhi'⟩ := coveredBy_iff.mp hcov
        have hadm' : q.admits r.runtime row' = true := admits_iff.mpr ⟨hbelongs _ _ hid, admitsTimes_iff.mpr
          ⟨Int64.le_trans hle (hhorizon ⟨key, List.ne_nil_of_mem hrow⟩), Int64.le_trans hlo' hlo,
            Int64.lt_of_lt_of_le hhi hhi'⟩⟩
        exact Int64.le_trans (Int64.le_of_lt hlt) (hlatest.le _ (hs.mem_durable hscan hin hadm'))
    · refine hlatest.le _ (hs.mem_durable ?_ hrow hadm)
      exact mem_scanKeys_of_tail hcap (mem_tailKeys.mpr ⟨mem_listObjects_of_mem_rowsAt hrow hpre, hsup⟩)

/-- **Two stores with the same L0 files give the same answers** at or above their horizons, if no two rows tie. -/
theorem PrunedStore.asOf_eq (hs : PrunedStore horizon s) (hs' : PrunedStore horizon' s')
    (hl0 : ∀ key, Tier.l0.dir <+: key → s'.lookup key = s.lookup key)
    (hlen : (s.listObjects (tierPrefix .l0 (entityHash8 r.runtime q.entityID))).length ≤ r.config.maxL0Files)
    (hties : NoTies (storedRows r.runtime s q.entityID))
    (hhorizon : (∃ key, s.rowsAt key ≠ []) → horizon ≤ q.txTimeNs) (hhorizon' : horizon' ≤ q.txTimeNs) :
    r.asOf .none s q = r.asOf .none s' q := by
  by_cases hid : q.entityID = []
  · simp [Resolver.asOf, hid]
  have hl0' : ∀ key, tierPrefix .l0 (entityHash8 r.runtime q.entityID) <+: key → s'.lookup key = s.lookup key :=
    fun key hpre => hl0 key (dir_isPrefix_tierPrefix hpre)
  have hadmitted : admittedL0 r.runtime s' q = admittedL0 r.runtime s q := by
    ext ev
    exact exists_congr fun row => and_congr_left fun _ => ObjectStore.mem_tierRows_congr hl0'
  have hlen' := hlen
  rw [← ObjectStore.listObjects_congr hl0'] at hlen'
  have hlatest := hs.isLatest (r := r) (withinCap_of_length_le hlen) hhorizon
  have hlatest' := hs'.isLatest (r := r) (withinCap_of_length_le hlen') fun _ => hhorizon'
  rw [hadmitted] at hlatest'
  have hfiles := hlatest.unique hlatest' (by
    rintro _ ⟨a, ha, hadm, rfl⟩ _ ⟨b, hb, hadm', rfl⟩ hpos htime
    have hstored : ∀ row, row ∈ s.tierRows .l0 (entityHash8 r.runtime q.entityID) → q.admits r.runtime row = true →
        row ∈ storedRows r.runtime s q.entityID := fun row hrow hadm =>
      ⟨(admits_iff.mp hadm).1, .l0, by decide, List.mem_flatMap.mp hrow⟩
    obtain ⟨-, hlo, hhi⟩ := admitsTimes_iff.mp (admits_iff.mp hadm).2
    obtain ⟨-, hlo', hhi'⟩ := admitsTimes_iff.mp (admits_iff.mp hadm').2
    exact hties a (hstored a ha hadm) b (hstored b hb hadm') hpos htime q.validTimeNs hlo hhi hlo' hhi')
  have hdom : r.dominant .none s q = r.dominant .none s' q := by rw [Resolver.dominant, Resolver.dominant, hfiles]
  rw [asOf_eq_of_dominant hid, asOf_eq_of_dominant hid, hdom]

end

/-! ### Answers of `Range` -/

section
variable {R : Runtime} {c c' : CompactionConfig} {f : CompactionFaults} {r : Resolver} {s s' : ObjectStore} {h : Hash8}
  {entityID : EntityID}

/-- The objects of a hash are the same. -/
def SameUnder (h : Hash8) (s s' : ObjectStore) : Prop :=
  ∀ t key, tierPrefix t h <+: key → s'.lookup key = s.lookup key

theorem SameUnder.listObjects (hsame : SameUnder h s s') (t : Tier) :
    s'.listObjects (tierPrefix t h) = s.listObjects (tierPrefix t h) := ObjectStore.listObjects_congr (hsame t)

/-- **`Range` looks at the objects of the hash only.** -/
theorem SameUnder.range_eq {q : RangeQuery} (hsame : SameUnder (entityHash8 r.runtime q.entityID) s s') :
    r.range .none s' q = r.range .none s q := by
  have hsup : loadSupersededL0Keys r.config .none s' (entityHash8 r.runtime q.entityID) q.txTimeNs =
      loadSupersededL0Keys r.config .none s (entityHash8 r.runtime q.entityID) q.txTimeNs := by
    unfold loadSupersededL0Keys
    rw [hsame.listObjects]
    split
    · rfl
    · refine List.flatMap_congr fun mk hmk => ?_
      rw [ObjectStore.readLines_congr (hsame _ mk (ObjectStore.mem_listObjects.mp hmk).2)]
  have hscan : scanKeys r.config .none s' (entityHash8 r.runtime q.entityID) q.txTimeNs =
      scanKeys r.config .none s (entityHash8 r.runtime q.entityID) q.txTimeNs := by
    rw [scanKeys, scanKeys, tailKeys, tailKeys, hsup, hsame.listObjects, hsame.listObjects]
  have hvisible : visibleFiles r.config .none s' (entityHash8 r.runtime q.entityID) q.txTimeNs =
      visibleFiles r.config .none s (entityHash8 r.runtime q.entityID) q.txTimeNs := by
    rw [visibleFiles, visibleFiles, hscan]
    congr 1
    refine List.map_congr_left fun key hkey => ?_
    have hlookup : s'.lookup key = s.lookup key := by
      rcases mem_list_of_mem_scanKeys hkey with hkey | hkey
      · exact hsame _ key (ObjectStore.mem_listObjects.mp hkey).2
      · exact hsame _ key (ObjectStore.mem_listObjects.mp hkey).2
    rw [visibleRows, visibleRows, fileRows, fileRows, ObjectStore.readRows_congr hlookup]
  have hwindow : r.window .none s' q = r.window .none s q := by
    unfold Resolver.window
    dsimp only
    rw [scanWindowFiles_eq_batch, scanWindowFiles_eq_batch, hvisible]
  unfold Resolver.range
  dsimp only
  rw [hwindow, hsame.listObjects, hsame.listObjects]

theorem readEntityRows_congr {keys : List ObjectKey} (hsame : ∀ key ∈ keys, s'.lookup key = s.lookup key) :
    readEntityRows R f s' entityID keys = readEntityRows R f s entityID keys := by
  induction keys with
  | nil => rfl
  | cons key keys ih =>
    obtain ⟨hkey, hkeys⟩ := List.forall_mem_cons.mp hsame
    rw [readEntityRows, readEntityRows, ObjectStore.readRows_congr hkey, ih hkeys]

theorem lookup_upload_congr {key : ObjectKey} (key' : ObjectKey) (obj : StoredObject) (outcome : UploadOutcome)
    (hsame : s'.lookup key = s.lookup key) :
    (s'.upload key' obj outcome).1.lookup key = (s.upload key' obj outcome).1.lookup key ∧
      (s'.upload key' obj outcome).2 = (s.upload key' obj outcome).2 := by
  have hinsert : (AList.insert key' obj s').lookup key = (AList.insert key' obj s).lookup key := by
    by_cases heq : key = key'
    · rw [heq, AList.lookup_insert, AList.lookup_insert]
    · rw [AList.lookup_insert_ne heq, AList.lookup_insert_ne heq, hsame]
  cases outcome with
  | ok => exact ⟨hinsert, rfl⟩
  | failed => exact ⟨hsame, rfl⟩
  | written => exact ⟨hinsert, rfl⟩

/-- **Compactions that keep the same rows write the same objects.** -/
theorem SameUnder.compaction (hsame : SameUnder h s s')
    (hprune : ∀ merged, readEntityRows R f s entityID (compactionKeys s h) = .ok merged →
      c'.prune (sortBy compare Row.frag merged) = c.prune (sortBy compare Row.frag merged)) :
    SameUnder h (Database.compaction R c f s entityID h).1 (Database.compaction R c' f s' entityID h).1 := by
  intro t key hpre
  have hkeys : compactionKeys s' h = compactionKeys s h := by rw [compactionKeys, compactionKeys, hsame.listObjects]
  have hread : readEntityRows R f s' entityID (compactionKeys s' h) =
      readEntityRows R f s entityID (compactionKeys s h) := by
    rw [hkeys]
    refine readEntityRows_congr fun key hkey => ?_
    exact hsame .l0 key (ObjectStore.mem_listObjects.mp (mem_compactionKeys.mp hkey)).2
  unfold Database.compaction
  rw [hread, hkeys]
  split
  · exact hsame t key hpre
  · cases hmerged : readEntityRows R f s entityID (compactionKeys s h) with
    | error e => exact hsame t key hpre
    | ok merged =>
      dsimp only
      rw [hprune merged hmerged]
      cases c.prune (sortBy compare Row.frag merged) with
      | nil => exact hsame t key hpre
      | cons first rest =>
        dsimp only
        obtain ⟨hl1, hok⟩ := lookup_upload_congr (l1KeyFor h first.systemTime) (.arrow (first :: rest)) f.uploadL1
          (hsame t key hpre)
        obtain ⟨hm, hok'⟩ := lookup_upload_congr (manifestKeyFor h first.systemTime)
          (.manifest (buildManifest (l1KeyFor h first.systemTime) (compactionKeys s h))) f.uploadManifest hl1
        unfold writeL1
        dsimp only
        rw [hok, hok']
        split
        · exact hl1
        · split
          · exact hm
          · exact hm

end

end Sovereign.Database

import Sovereign.Database.Compaction

/-!
# What readers see of the stored rows

A query does not look at all files: it passes over the L0 files that manifests list, and with
`EnableFirstSysSkip` over the files whose key names a later time.  `Layout` is what makes that harmless: a file
has no row before the time in its key, and a row in an L0 file that a manifest lists is also in an L1 file.

Under it every result about readers is one about the **set** of stored rows:

* `stored_iff_durable` — a row after time zero is a candidate of `AsOf` iff it is stored;
* `asOf_answers_latest_iff` — `AsOf` answers with a latest admissible row, and not-found exactly if there is
  none, **iff** some admissible row is after time zero or there is none at all.
-/

namespace Sovereign.Database

open Lib Sync

/-! ### Files and their keys -/

/-- The files of an entity are laid out as flushes and compactions lay them out. -/
structure Layout (R : Runtime) (s : ObjectStore) (entityID : EntityID) : Prop where
  /-- No row is before the time in the key of its file, in the order of the keys. -/
  keyed : ∀ t ∈ [Tier.l0, Tier.l1], ∀ key ∈ s.listObjects (tierPrefix t (entityHash8 R entityID)),
    ∀ m ∈ parseFirstSysFromKey key, ∀ row ∈ s.rowsAt key, m.toUInt64 ≤ row.systemTime.toUInt64
  /-- The rows of the L0 files in a manifest are in L1. -/
  merged : ∀ mk ∈ s.listObjects (tierPrefix .compaction (entityHash8 R entityID)), ∀ lines ∈ s.readLines mk false,
    ∀ key ∈ (parseManifest lines).2, ∀ row ∈ s.rowsAt key, belongs R entityID row = true →
      ∃ l1Key ∈ s.listObjects (tierPrefix .l1 (entityHash8 R entityID)), row ∈ s.rowsAt l1Key

theorem layout_iff {R : Runtime} {s : ObjectStore} {entityID : EntityID} :
    Layout R s entityID ↔
      (∀ t ∈ [Tier.l0, Tier.l1], ∀ key ∈ s.listObjects (tierPrefix t (entityHash8 R entityID)),
        ∀ row ∈ s.rowsAt key, (parseFirstSysFromKey key).all (·.toUInt64 ≤ row.systemTime.toUInt64) = true) ∧
      ∀ mk ∈ s.listObjects (tierPrefix .compaction (entityHash8 R entityID)), ∀ lines ∈ s.readLines mk false,
        ∀ key ∈ (parseManifest lines).2, ∀ row ∈ s.rowsAt key, belongs R entityID row = true →
          ∃ l1Key ∈ s.listObjects (tierPrefix .l1 (entityHash8 R entityID)), row ∈ s.rowsAt l1Key := by
  simp only [Option.all_eq_true, decide_eq_true_eq]
  exact ⟨fun h => ⟨fun t ht key hkey row hrow m hm => h.keyed t ht key hkey m hm row hrow, h.merged⟩,
    fun h => ⟨fun t ht key hkey m hm row hrow => h.1 t ht key hkey row hrow m hm, h.2⟩⟩

-- not by the field itself: it would be searched among all 64-bit words
instance {R : Runtime} {s : ObjectStore} {entityID : EntityID} : Decidable (Layout R s entityID) :=
  decidable_of_iff' _ layout_iff

/-- The rows of an entity in the files of both tiers. -/
def storedRows (R : Runtime) (s : ObjectStore) (entityID : EntityID) : Set Row :=
  {row | belongs R entityID row = true ∧ ∃ t ∈ [Tier.l0, Tier.l1],
    ∃ key ∈ s.listObjects (tierPrefix t (entityHash8 R entityID)), row ∈ s.rowsAt key}

/-- Times that are not negative are ordered as their unsigned readings are. -/
theorem le_of_toUInt64_le {m t : Int64} (ht : 0 ≤ t) (h : m.toUInt64 ≤ t.toUInt64) : m ≤ t := by
  by_contra hlt
  have hge := Int64.toUInt64_le ht (Int64.le_of_lt (Int64.not_le.mp hlt))
  have heq : m = t := by simpa using congrArg UInt64.toInt64 (UInt64.le_antisymm h hge)
  exact hlt (heq ▸ Int64.le_refl m)

section
variable {R : Runtime} {c : ResolverConfig} {f : QueryFaults} {s : ObjectStore} {entityID : EntityID}
  {txTimeNs : Int64} {key : ObjectKey} {row : Row}

/-- A file of the layout that is skipped has no row of the query that is not before zero. -/
theorem Layout.neg_of_skips (hlayout : Layout R s entityID) {t : Tier} (ht : t ∈ [Tier.l0, Tier.l1])
    (hkey : key ∈ s.listObjects (tierPrefix t (entityHash8 R entityID))) (hrow : row ∈ s.rowsAt key)
    (hskip : c.skips txTimeNs key = true) (htx : row.systemTime ≤ txTimeNs) : row.systemTime < 0 := by
  by_contra hneg
  obtain ⟨-, hskip⟩ := Bool.and_eq_true_iff.mp hskip
  cases hm : parseFirstSysFromKey key with
  | none =>
    rw [hm] at hskip
    cases hskip
  | some m =>
    rw [hm] at hskip
    have hle := le_of_toUInt64_le (Int64.not_lt.mp hneg) (hlayout.keyed t ht key hkey m hm row hrow)
    exact absurd (Int64.lt_of_lt_of_le (of_decide_eq_true hskip) (Int64.le_trans hle htx)) Int64.lt_irrefl

/-- A key that is left out of the tail is listed by a manifest. -/
theorem exists_manifest_of_superseded (hkey : key ∈ loadSupersededL0Keys c f s (entityHash8 R entityID) txTimeNs) :
    ∃ mk ∈ s.listObjects (tierPrefix .compaction (entityHash8 R entityID)), ∃ lines ∈ s.readLines mk false,
      key ∈ (parseManifest lines).2 := by
  obtain ⟨-, mk, hmk, -, lines, hlines, hkey⟩ := mem_loadSupersededL0Keys.mp hkey
  refine ⟨mk, hmk, lines, ?_, hkey⟩
  cases hfault : f.manifest mk with
  | false => rwa [hfault] at hlines
  | true => simp [hfault, ObjectStore.readLines] at hlines

/-- **A stored row is in a file that is scanned**, within the cap. -/
theorem Layout.exists_scanned (hlayout : Layout R s entityID)
    (hcap : WithinCap c f s (entityHash8 R entityID) txTimeNs) (hrow : row ∈ storedRows R s entityID) :
    ∃ t ∈ [Tier.l0, Tier.l1], ∃ key ∈ s.listObjects (tierPrefix t (entityHash8 R entityID)),
      key ∈ scanKeys c f s (entityHash8 R entityID) txTimeNs ∧ row ∈ s.rowsAt key := by
  have hl1 : ∀ key ∈ s.listObjects (tierPrefix .l1 (entityHash8 R entityID)), row ∈ s.rowsAt key →
      ∃ t ∈ [Tier.l0, Tier.l1], ∃ key ∈ s.listObjects (tierPrefix t (entityHash8 R entityID)),
        key ∈ scanKeys c f s (entityHash8 R entityID) txTimeNs ∧ row ∈ s.rowsAt key :=
    fun key hkey hrow => ⟨.l1, by decide, key, hkey, mem_scanKeys_of_l1 hkey, hrow⟩
  obtain ⟨hbelongs, t, ht, key, hkey, hrow⟩ := hrow
  by_cases htier : t = .l1
  · subst htier
    exact hl1 key hkey hrow
  · obtain rfl : t = .l0 := by simpa [htier] using ht
    by_cases hsup : key ∈ loadSupersededL0Keys c f s (entityHash8 R entityID) txTimeNs
    · obtain ⟨mk, hmk, lines, hlines, hlisted⟩ := exists_manifest_of_superseded hsup
      obtain ⟨l1Key, hl1Key, hrow'⟩ := hlayout.merged mk hmk lines hlines key hlisted row hrow hbelongs
      exact hl1 l1Key hl1Key hrow'
    · exact ⟨.l0, ht, key, hkey, mem_scanKeys_of_tail hcap (mem_tailKeys.mpr ⟨hkey, hsup⟩), hrow⟩

theorem storedRows_of_fileRows (hkey : key ∈ scanKeys c f s (entityHash8 R entityID) txTimeNs) {rows : List Row}
    (hrows : fileRows c f s txTimeNs key = some rows) (hrow : row ∈ rows) (hbelongs : belongs R entityID row = true) :
    row ∈ storedRows R s entityID := by
  unfold fileRows at hrows
  split at hrows
  · cases hrows
  · have hrow := (mem_rowsAt_of_readRows hrows hrow).1
    rcases mem_list_of_mem_scanKeys hkey with hkey | hkey
    · exact ⟨hbelongs, .l1, by decide, key, hkey, hrow⟩
    · exact ⟨hbelongs, .l0, by decide, key, hkey, hrow⟩

theorem fileRows_of_not_skips (hskip : c.skips txTimeNs key = false) (hfile : f.file key = .none)
    (hrow : row ∈ s.rowsAt key) : fileRows c f s txTimeNs key = some (s.rowsAt key) := by
  rw [fileRows, hskip, if_neg Bool.false_ne_true, hfile, readRows_of_mem_rowsAt hrow]

end

/-! ### One object more -/

section
variable {R : Runtime} {s : ObjectStore} {entityID : EntityID} {h : Hash8} {m : Int64} {rows : List Row}
  {obj : StoredObject} {key key' : ObjectKey} {t : Tier} {pre : Bytes} {lines : List ObjectKey}

theorem ObjectStore.mem_listObjects_insert :
    key ∈ ObjectStore.listObjects (s.insert key' obj) pre ↔ (key = key' ∨ key ∈ s) ∧ pre <+: key := by
  rw [ObjectStore.mem_listObjects, AList.mem_insert]

theorem ObjectStore.rowsAt_insert_self : ObjectStore.rowsAt (s.insert key (.arrow rows)) key = rows :=
  ObjectStore.rowsAt_of_lookup (AList.lookup_insert s)

theorem ObjectStore.rowsAt_insert_of_ne (hne : key ≠ key') :
    ObjectStore.rowsAt (s.insert key' obj) key = s.rowsAt key := by
  rw [ObjectStore.rowsAt, AList.lookup_insert_ne hne, ObjectStore.rowsAt]

theorem ObjectStore.readLines_insert_of_ne (hne : key ≠ key') {fails : Bool} :
    ObjectStore.readLines (s.insert key' obj) key fails = s.readLines key fails := by
  simp only [ObjectStore.readLines, AList.lookup_insert_ne hne]

theorem ne_of_prefix {t' : Tier} (hkey : tierPrefix t h <+: key) (ht : t ≠ t') {h' : Hash8} :
    key ≠ objectKey t' h' m := by
  rintro rfl
  exact ht (tierPrefix_isPrefix_iff.mp hkey).1

theorem eq_of_mem_parseFirstSysFromKey {m' : Int64} (hm : m' ∈ parseFirstSysFromKey (objectKey t h m)) : m' = m := by
  rw [parseFirstSysFromKey_objectKey] at hm
  split at hm
  · cases hm
  · exact (Option.mem_some_iff.mp hm).symm

theorem cases_of_mem_listObjects_insert (hkey : key ∈ ObjectStore.listObjects (s.insert key' obj) pre) :
    key = key' ∨ key ≠ key' ∧ key ∈ s.listObjects pre := by
  obtain ⟨heq | hmem, hpre⟩ := ObjectStore.mem_listObjects_insert.mp hkey
  · exact .inl heq
  · by_cases heq : key = key'
    · exact .inl heq
    · exact .inr ⟨heq, ObjectStore.mem_listObjects.mpr ⟨hmem, hpre⟩⟩

theorem mem_listObjects_insert_of_mem (hkey : key ∈ s.listObjects pre) :
    key ∈ ObjectStore.listObjects (s.insert key' obj) pre := by
  obtain ⟨hmem, hpre⟩ := ObjectStore.mem_listObjects.mp hkey
  exact ObjectStore.mem_listObjects_insert.mpr ⟨.inr hmem, hpre⟩

/-- **A file is laid out like the others** if its key names its first time, no manifest lists it, and nothing is
lost by overwriting. -/
theorem Layout.insert_arrow (hlayout : Layout R s entityID) (ht : t ∈ [Tier.l0, Tier.l1])
    (hfirst : ∀ row ∈ rows, m.toUInt64 ≤ row.systemTime.toUInt64)
    (hunlisted : t = .l0 → ∀ mk lines, s.lookup mk = some (.manifest lines) →
      objectKey t h m ∉ (parseManifest lines).2)
    (hold : t = .l1 → ∀ row ∈ s.rowsAt (objectKey t h m), belongs R entityID row = true → row ∈ rows) :
    Layout R (s.insert (objectKey t h m) (.arrow rows)) entityID := by
  constructor
  · intro t' ht' key hkey m' hm row hrow
    rcases cases_of_mem_listObjects_insert hkey with rfl | ⟨hne, hkey⟩
    · rw [ObjectStore.rowsAt_insert_self] at hrow
      rw [eq_of_mem_parseFirstSysFromKey hm]
      exact hfirst row hrow
    · rw [ObjectStore.rowsAt_insert_of_ne hne] at hrow
      exact hlayout.keyed t' ht' key hkey m' hm row hrow
  · intro mk hmk lines hlines key hkey row hrow hbelongs
    have hmkne : mk ≠ objectKey t h m :=
      ne_of_prefix (ObjectStore.mem_listObjects.mp hmk).2 (by rintro rfl; revert ht; decide)
    rw [ObjectStore.readLines_insert_of_ne hmkne] at hlines
    have hmk := (cases_of_mem_listObjects_insert hmk).resolve_left hmkne |>.2
    have hkeyne : key ≠ objectKey t h m := by
      by_cases hl0 : t = .l0
      · rintro rfl
        refine hunlisted hl0 mk lines ?_ hkey
        unfold ObjectStore.readLines at hlines
        split at hlines
        · next hlookup _ =>
          cases hlines
          exact hlookup
        · cases hlines
          cases hkey
        · cases hlines
      · exact ne_of_dir (dir_of_mem_parseManifest hkey) hl0
    rw [ObjectStore.rowsAt_insert_of_ne hkeyne] at hrow
    obtain ⟨l1Key, hl1Key, hrow'⟩ := hlayout.merged mk hmk lines hlines key hkey row hrow hbelongs
    refine ⟨l1Key, mem_listObjects_insert_of_mem hl1Key, ?_⟩
    by_cases heq : l1Key = objectKey t h m
    · subst heq
      have htier : t = .l1 := (tierPrefix_isPrefix_iff.mp (ObjectStore.mem_listObjects.mp hl1Key).2).1.symm
      rw [ObjectStore.rowsAt_insert_self]
      exact hold htier row hrow' hbelongs
    · rwa [ObjectStore.rowsAt_insert_of_ne heq]

/-- **A manifest fits the layout** if the rows of the files it lists are in L1. -/
theorem Layout.insert_manifest (hlayout : Layout R s entityID)
    (hmerged : h = entityHash8 R entityID → ∀ key ∈ (parseManifest lines).2, ∀ row ∈ s.rowsAt key,
      belongs R entityID row = true → ∃ l1Key ∈ s.listObjects (tierPrefix .l1 h), row ∈ s.rowsAt l1Key) :
    Layout R (s.insert (manifestKeyFor h m) (.manifest lines)) entityID := by
  have hrowsAt : ∀ {key}, (∀ row ∈ ObjectStore.rowsAt (s.insert (manifestKeyFor h m) (.manifest lines)) key,
      key ≠ manifestKeyFor h m) := by
    rintro key row hrow rfl
    unfold ObjectStore.rowsAt at hrow
    rw [AList.lookup_insert] at hrow
    cases hrow
  constructor
  · intro t ht key hkey m' hm row hrow
    have hne := hrowsAt row hrow
    rw [ObjectStore.rowsAt_insert_of_ne hne] at hrow
    exact hlayout.keyed t ht key ((cases_of_mem_listObjects_insert hkey).resolve_left hne).2 m' hm row hrow
  · intro mk hmk lines' hlines key hkey row hrow hbelongs
    rw [ObjectStore.rowsAt_insert_of_ne (hrowsAt row hrow)] at hrow
    have hl1 : ∃ l1Key ∈ s.listObjects (tierPrefix .l1 (entityHash8 R entityID)), row ∈ s.rowsAt l1Key := by
      rcases cases_of_mem_listObjects_insert hmk with rfl | ⟨hne, hmk⟩
      · have hh : entityHash8 R entityID = h := (tierPrefix_isPrefix_iff.mp (ObjectStore.mem_listObjects.mp hmk).2).2
        simp only [ObjectStore.readLines, AList.lookup_insert, Option.mem_some_iff] at hlines
        subst hlines
        rw [hh]
        exact hmerged hh.symm key hkey row hrow hbelongs
      · rw [ObjectStore.readLines_insert_of_ne hne] at hlines
        exact hlayout.merged mk hmk lines' hlines key hkey row hrow hbelongs
    obtain ⟨l1Key, hl1Key, hrow'⟩ := hl1
    refine ⟨l1Key, mem_listObjects_insert_of_mem hl1Key, ?_⟩
    rwa [ObjectStore.rowsAt_insert_of_ne]
    exact ne_of_prefix (ObjectStore.mem_listObjects.mp hl1Key).2 (by decide)

theorem storedRows_subset_insert
    (hold : ∀ row ∈ s.rowsAt key', belongs R entityID row = true →
      row ∈ storedRows R (s.insert key' obj) entityID) :
    storedRows R s entityID ⊆ storedRows R (s.insert key' obj) entityID := by
  rintro row ⟨hbelongs, t, ht, key, hkey, hrow⟩
  by_cases heq : key = key'
  · exact hold row (heq ▸ hrow) hbelongs
  · exact ⟨hbelongs, t, ht, key, mem_listObjects_insert_of_mem hkey, by rwa [ObjectStore.rowsAt_insert_of_ne heq]⟩

theorem mem_storedRows_insert {row : Row} (ht : t ∈ [Tier.l0, Tier.l1]) (hrow : row ∈ rows)
    (hbelongs : belongs R entityID row = true) :
    row ∈ storedRows R (s.insert (objectKey t (entityHash8 R entityID) m) (.arrow rows)) entityID :=
  ⟨hbelongs, t, ht, _, ObjectStore.mem_listObjects_insert.mpr ⟨.inl rfl, List.prefix_append _ _⟩,
    by rwa [ObjectStore.rowsAt_insert_self]⟩

theorem storedRows_insert_manifest :
    storedRows R (s.insert (manifestKeyFor h m) (.manifest lines)) entityID = storedRows R s entityID := by
  ext row
  refine and_congr_right fun _ => exists_congr fun t => and_congr_right fun ht => ?_
  have hne : ∀ {key}, tierPrefix t (entityHash8 R entityID) <+: key → key ≠ manifestKeyFor h m := fun hpre =>
    ne_of_prefix hpre (by rintro rfl; revert ht; decide)
  constructor
  · rintro ⟨key, hkey, hrow⟩
    have hne := hne (ObjectStore.mem_listObjects.mp hkey).2
    rw [ObjectStore.rowsAt_insert_of_ne hne] at hrow
    exact ⟨key, ((cases_of_mem_listObjects_insert hkey).resolve_left hne).2, hrow⟩
  · rintro ⟨key, hkey, hrow⟩
    refine ⟨key, mem_listObjects_insert_of_mem hkey, ?_⟩
    rwa [ObjectStore.rowsAt_insert_of_ne (hne (ObjectStore.mem_listObjects.mp hkey).2)]

end

/-! ### `AsOf` over the stored rows -/

def Resolver.stored (r : Resolver) (s : ObjectStore) (q : AsOfQuery) : Set TriTemporalEvent :=
  {ev | ∃ row ∈ storedRows r.runtime s q.entityID, q.admitsTimes row.toTriTemporalEvent = true ∧
    row.toTriTemporalEvent = ev}

/-- The answer is a latest row of `C`, or not-found if there is none. -/
def AnswersLatest (C : Set TriTemporalEvent) : Except QueryError TriTemporalEvent → Prop
  | .ok ev => ev ∈ C ∧ ∀ ev' ∈ C, ev'.systemTime ≤ ev.systemTime
  | .error e => e = .entityNotFound ∧ C = ∅

section
variable {R : Runtime} {r : Resolver} {f : QueryFaults} {s : ObjectStore} {q : AsOfQuery} {row : Row}
  {ev : TriTemporalEvent}

theorem admits_iff : q.admits R row = true ↔
    belongs R q.entityID row = true ∧ q.admitsTimes row.toTriTemporalEvent = true := by
  simp only [AsOfQuery.admits, belongs, Bool.and_eq_true]
  tauto

theorem admitsTimes_iff : q.admitsTimes ev = true ↔
      ev.systemTime ≤ q.txTimeNs ∧ ev.validTimeStart ≤ q.validTimeNs ∧ q.validTimeNs < ev.validTimeEnd := by
  simp only [AsOfQuery.admitsTimes, Bool.and_eq_true, Bool.not_eq_true', Bool.or_eq_false_iff,
    decide_eq_false_iff_not, Int64.not_lt, Int64.not_le]

theorem durable_subset_stored : r.durable f s q ⊆ r.stored s q := by
  rintro ev ⟨key, hkey, rows, hrows, row, hrow, hadm, rfl⟩
  obtain ⟨hbelongs, htimes⟩ := admits_iff.mp hadm
  exact ⟨row, storedRows_of_fileRows hkey hrows hrow hbelongs, htimes, rfl⟩

/-- **After time zero the candidates of a query are the stored rows.** -/
theorem stored_iff_durable (hlayout : Layout r.runtime s q.entityID)
    (hcap : WithinCap r.config f s (entityHash8 r.runtime q.entityID) q.txTimeNs)
    (hfile : ∀ key, f.file key = .none) (hpos : 0 < ev.systemTime) :
    ev ∈ r.durable f s q ↔ ev ∈ r.stored s q := by
  refine ⟨fun h => durable_subset_stored h, ?_⟩
  rintro ⟨row, hstored, htimes, rfl⟩
  obtain ⟨t, ht, key, hkey, hscan, hrow⟩ := hlayout.exists_scanned hcap hstored
  have hskip : r.config.skips q.txTimeNs key = false := by
    by_contra hskip
    have hneg := hlayout.neg_of_skips ht hkey hrow (by simpa using hskip) (admitsTimes_iff.mp htimes).1
    exact absurd (Int64.lt_trans hneg hpos) Int64.lt_irrefl
  exact ⟨key, hscan, _, fileRows_of_not_skips hskip (hfile key) hrow, row, hrow,
    admits_iff.mpr ⟨hstored.1, htimes⟩, rfl⟩

theorem isLatest_stored (hlayout : Layout r.runtime s q.entityID)
    (hcap : WithinCap r.config f s (entityHash8 r.runtime q.entityID) q.txTimeNs)
    (hfile : ∀ key, f.file key = .none) :
    IsLatest TriTemporalEvent.systemTime (r.stored s q ∪ r.live q) (r.dominant f s q) :=
  isLatest_dominant.congr_pos fun _ hpos => or_congr_left (stored_iff_durable hlayout hcap hfile hpos)

/-- Without faults, `AsOf` answers with the result of its loops. -/
theorem asOf_eq_of_dominant (hid : q.entityID ≠ []) :
    r.asOf .none s q = match r.dominant .none s q with
      | none => .error .entityNotFound
      | some ev => .ok ev := by
  cases hdom : r.dominant .none s q with
  | some ev => rw [asOf_eq_dominant hid rfl rfl (isLatest_dominant.mem ev hdom).1, hdom]
  | none =>
    have hempty : q.entityID.isEmpty = false := by simpa using hid
    simp only [Resolver.asOf, hempty, QueryFaults.none, Bool.false_eq_true, if_false]
    rw [← QueryFaults.none, hdom]
    split <;> rfl

def sampleResolver : Resolver := ⟨.sample, defaultResolverConfig, none⟩

def epochFile : ObjectStore := AList.insert (l0KeyFor sampleHash 0) (.arrow [sampleRow 0 0 10]) ∅

end

end Sovereign.Database

import Sovereign.Database.Readers
import Sovereign.Lib.Run

/-!
# The life cycle of the query tier

A MemTable and an object store, and what is done to them: writes, flushes, the uploads of background flushes,
compactions (by entity or by hash) and sweeps of the reaper, each with any faults.

The keys of all objects are made from a first system time, so a flush can overwrite a file, or be born into the list
of an earlier manifest, and a compaction can overwrite an L1 file.  `TierStep.Safe` excludes just that.  Every safe
step keeps the layout of the store and the stored rows (`StoreSound`, one lemma for each kind of step); a sweep needs
no condition.

So every row ever flushed stays found (`flushed_rows_stay_found`), and if every upload succeeds, every row written is
still in the table or stored (`run_written`).
-/

namespace Sovereign.Database

open Lib Sync MemTable

/-! ### Steps -/

structure QueryTier where
  table : MemTable
  store : ObjectStore

inductive TierStep where
  | write (ev : TriTemporalEvent)
  | flush (upload : L0Partition → UploadOutcome) (fallback : L0Partition → Bool)
  | background (i : ℕ) (attempts : List UploadOutcome)
  | compaction (c : CompactionConfig) (f : CompactionFaults) (entityID : EntityID)
  | compactionByHash8 (c : CompactionConfig) (listFails : Bool) (readFirst : ReadFault) (f : CompactionFaults)
      (h : Hash8)
  | reap (f : ReapFaults)

/-- What a step reports: rows that `Write` has accepted, and rows in partitions whose upload has succeeded. -/
inductive TierEvent where
  | written (row : Row)
  | flushed (row : Row)
deriving DecidableEq

/-- The rows whose upload succeeds in the loop of `Flush`. -/
def flushedRows (fallbackDir : Bool) (upload : L0Partition → UploadOutcome) (fallback : L0Partition → Bool) :
    List L0Partition → List Row
  | [] => []
  | p :: ps =>
    if upload p = .ok then p.rows ++ flushedRows fallbackDir upload fallback ps
    else if fallbackDir && fallback p then flushedRows fallbackDir upload fallback ps
    else []

/-- The rows whose upload succeeds in a background flush. -/
def uploadedRows (m : MemTable) (i : ℕ) (attempts : List UploadOutcome) : List Row :=
  match m.frozen[i]? with
  | some (p :: _) => if .ok ∈ attempts.take 10 then p.rows else []
  | _ => []

def QueryTier.step (R : Runtime) (xxhash : Bytes → UInt64) (t : QueryTier) :
    TierStep → Option (QueryTier × List TierEvent)
  | .write ev =>
    let result := t.table.write R xxhash ev
    some (⟨result.1, t.store⟩, if result.2.isNone then [.written (eventRow R xxhash ev)] else [])
  | .flush upload fallback =>
    let result := t.table.flush t.store upload fallback
    some (⟨result.1, result.2.1⟩,
      (flushedRows t.table.fallbackDir upload fallback (partitions t.table.skipList)).map .flushed)
  | .background i attempts =>
    let result := t.table.background t.store i attempts
    some (⟨result.1, result.2⟩, (uploadedRows t.table i attempts).map .flushed)
  | .compaction c f entityID =>
    some (⟨t.table, (Database.compaction R c f t.store entityID (entityHash8 R entityID)).1⟩, [])
  | .compactionByHash8 c listFails readFirst f h =>
    some (⟨t.table, (Database.compactionByHash8 R c listFails readFirst f t.store h).1⟩, [])
  | .reap f => some (⟨t.table, (Database.reap f t.store).1⟩, [])

/-! ### Safe steps -/

/-- The key of the partition is neither taken nor listed in a manifest. -/
def Fresh (s : ObjectStore) (p : L0Partition) : Prop :=
  p.key ∉ s ∧ ∀ mk ∈ s.keys, ∀ lines ∈ s.readLines mk false, p.key ∉ (parseManifest lines).2

/-- The L0 files of the entity's hash can be read and hold rows of the entity only, and the L1 file that bears their
earliest time, if there is one, has no other rows. -/
def Compactable (R : Runtime) (f : CompactionFaults) (s : ObjectStore) (entityID : EntityID) : Prop :=
  (∀ key ∈ s.listObjects (tierPrefix .l0 (entityHash8 R entityID)), f.read key = .none ∧
    ∀ row ∈ s.rowsAt key, belongs R entityID row = true) ∧
  ∀ key ∈ s.listObjects (tierPrefix .l0 (entityHash8 R entityID)), ∀ first ∈ s.rowsAt key,
    (∀ key' ∈ s.listObjects (tierPrefix .l0 (entityHash8 R entityID)), ∀ row ∈ s.rowsAt key',
      first.systemTime.toUInt64 ≤ row.systemTime.toUInt64) →
    ∀ old ∈ s.rowsAt (l1KeyFor (entityHash8 R entityID) first.systemTime),
      ∃ key' ∈ s.listObjects (tierPrefix .l0 (entityHash8 R entityID)), old ∈ s.rowsAt key'

/-- The condition on a step, in the state before it. -/
def TierStep.Safe (R : Runtime) (t : QueryTier) : TierStep → Prop
  | .write ev => 0 < ev.systemTime ∧ ev.entityID ≠ []
  | .flush _ _ =>
    ((partitions t.table.skipList).map L0Partition.key).Nodup ∧ ∀ p ∈ partitions t.table.skipList, Fresh t.store p
  | .background i _ => ∀ ps ∈ t.table.frozen[i]?, ∀ p ∈ ps.head?, Fresh t.store p
  | .compaction c f entityID => c.enableDominancePruning = false ∧ Compactable R f t.store entityID
  | .compactionByHash8 c _ _ f h => c.enableDominancePruning = false ∧
      ∀ key ∈ t.store.listObjects (tierPrefix .l0 h), ∀ row ∈ t.store.rowsAt key,
        entityHash8 R row.entityID = h ∧ Compactable R f t.store row.entityID
  | .reap _ => True

instance (s : ObjectStore) (p : L0Partition) : Decidable (Fresh s p) := inferInstanceAs (Decidable (_ ∧ _))

instance (R : Runtime) (f : CompactionFaults) (s : ObjectStore) (entityID : EntityID) :
    Decidable (Compactable R f s entityID) := inferInstanceAs (Decidable (_ ∧ _))

instance (R : Runtime) (t : QueryTier) : ∀ step : TierStep, Decidable (step.Safe R t)
  | .write _ => inferInstanceAs (Decidable (_ ∧ _))
  | .flush _ _ => inferInstanceAs (Decidable (_ ∧ _))
  | .background _ _ => inferInstanceAs (Decidable (∀ ps ∈ _, ∀ p ∈ _, Fresh _ p))
  | .compaction _ _ _ => inferInstanceAs (Decidable (_ ∧ _))
  | .compactionByHash8 _ _ _ _ _ => inferInstanceAs (Decidable (_ ∧ _))
  | .reap _ => inferInstanceAs (Decidable True)

/-! ### The store -/

/-- The files of every entity are laid out, and a manifest lists L0 files of its own hash. -/
structure StoreSound (R : Runtime) (s : ObjectStore) : Prop where
  layout : ∀ entityID, Layout R s entityID
  own : ∀ mk lines, s.lookup mk = some (.manifest lines) →
    ∃ h m, mk = manifestKeyFor h m ∧ ∀ key ∈ (parseManifest lines).2, tierPrefix .l0 h <+: key

/-- What a step makes of a store: sound again, and without loss of a row. -/
structure Keeps (R : Runtime) (s s' : ObjectStore) : Prop where
  sound : StoreSound R s'
  stored : ∀ entityID, storedRows R s entityID ⊆ storedRows R s' entityID

section
variable {R : Runtime} {s s' s'' : ObjectStore} {p : L0Partition} {c : CompactionConfig} {f : CompactionFaults}
  {entityID : EntityID} {lines : List ObjectKey} {first : Row} {rows : List Row}

theorem StoreSound.refl (hs : StoreSound R s) : Keeps R s s := ⟨hs, fun _ => Set.Subset.rfl⟩

theorem Keeps.trans (h : Keeps R s s') (h' : Keeps R s' s'') : Keeps R s s'' :=
  ⟨h'.sound, fun id => (h.stored id).trans (h'.stored id)⟩

theorem storeSound_empty : StoreSound R ∅ := by
  refine ⟨fun _ => ⟨fun t _ key hkey => ?_, fun mk hmk => ?_⟩, fun mk lines hmk => ?_⟩
  · cases (ObjectStore.mem_listObjects.mp hkey).1
  · cases (ObjectStore.mem_listObjects.mp hmk).1
  · cases hmk

theorem readLines_of_lookup {mk : ObjectKey} (hmk : s.lookup mk = some (.manifest lines)) :
    lines ∈ s.readLines mk false := by
  simp [ObjectStore.readLines, hmk]

theorem Fresh.unlisted (h : Fresh s p) {mk : ObjectKey}
    (hmk : s.lookup mk = some (.manifest lines)) : p.key ∉ (parseManifest lines).2 :=
  h.2 mk (AList.mem_keys.mp (ObjectStore.mem_of_lookup hmk)) lines (readLines_of_lookup hmk)

theorem Fresh.rowsAt (h : Fresh s p) : s.rowsAt p.key = [] := by
  unfold ObjectStore.rowsAt
  rw [AList.lookup_eq_none.mpr h.1]

theorem StoreSound.insert_l0 (hs : StoreSound R s) (hp : p.Sound) (hfresh : Fresh s p) :
    Keeps R s (s.insert p.key (.arrow p.rows)) := by
  refine ⟨⟨fun id => (hs.layout id).insert_arrow (by decide) (fun row hrow => hp.first_le hrow)
    (fun _ mk lines hmk => hfresh.unlisted hmk) nofun, fun mk lines hmk => ?_⟩, fun id => ?_⟩
  · by_cases heq : mk = p.key
    · rw [heq, AList.lookup_insert] at hmk
      cases hmk
    · rw [AList.lookup_insert_ne heq] at hmk
      exact hs.own mk lines hmk
  · refine storedRows_subset_insert fun row hrow _ => ?_
    rw [hfresh.rowsAt] at hrow
    cases hrow

theorem mem_storedRows_of_partition (hp : p.Sound) {row : Row} (hrow : row ∈ p.rows)
    (hhash : row.entityIDHash = entityHash16 R row.entityID) :
    row ∈ storedRows R (s.insert p.key (.arrow p.rows)) row.entityID := by
  have hkey : p.key = objectKey .l0 (entityHash8 R row.entityID) p.firstSysTimeNs := by
    rw [L0Partition.key, ← hp.hash row hrow, hhash, keyHash_entityHash16, l0KeyFor]
  rw [hkey]
  exact mem_storedRows_insert (by decide) hrow (by simp [belongs, hhash])

theorem Fresh.insert {p' : L0Partition} (h : Fresh s p') (hne : p'.key ≠ p.key) :
    Fresh (s.insert p.key (.arrow p.rows)) p' := by
  refine ⟨fun hmem => ?_, fun mk hmk lines hlines => ?_⟩
  · exact h.1 (((AList.mem_insert s).mp hmem).resolve_left hne)
  · by_cases heq : mk = p.key
    · subst heq
      simp only [ObjectStore.readLines, AList.lookup_insert, Option.mem_some_iff] at hlines
      subst hlines
      simp [parseManifest]
    · rw [ObjectStore.readLines_insert_of_ne heq] at hlines
      exact h.2 mk (AList.mem_keys.mp (((AList.mem_insert s).mp (AList.mem_keys.mpr hmk)).resolve_left heq)) lines hlines

theorem StoreSound.flushPartitions (hs : StoreSound R s) {fallbackDir : Bool} {upload : L0Partition → UploadOutcome}
    {fallback : L0Partition → Bool} {ps : List L0Partition} (hsound : ∀ p ∈ ps, p.Sound)
    (hnodup : (ps.map L0Partition.key).Nodup) (hfresh : ∀ p ∈ ps, Fresh s p) :
    Keeps R s (MemTable.flushPartitions fallbackDir upload fallback s ps).1 ∧
      ∀ row ∈ flushedRows fallbackDir upload fallback ps, row.entityIDHash = entityHash16 R row.entityID →
        row ∈ storedRows R (MemTable.flushPartitions fallbackDir upload fallback s ps).1 row.entityID := by
  induction ps generalizing s with
  | nil => exact ⟨hs.refl, List.forall_mem_nil _⟩
  | cons p ps ih =>
    obtain ⟨hp, hps⟩ := List.forall_mem_cons.mp hsound
    obtain ⟨hpf, hpsf⟩ := List.forall_mem_cons.mp hfresh
    rw [List.map_cons, List.nodup_cons] at hnodup
    have hkeeps := hs.insert_l0 hp hpf
    have hne : ∀ p' ∈ ps, p'.key ≠ p.key := fun p' hp' heq => hnodup.1 (heq ▸ List.mem_map_of_mem hp')
    have hins := ih hkeeps.sound hps hnodup.2 fun p' hp' => (hpsf p' hp').insert (hne p' hp')
    have hrest := ih hs hps hnodup.2 hpsf
    rw [MemTable.flushPartitions, flushedRows]
    -- the partition is uploaded and reported, uploaded and not reported, or not uploaded
    cases hup : upload p with
    | ok =>
      simp only [ObjectStore.upload, if_true]
      refine ⟨hkeeps.trans hins.1, fun row hrow hhash => ?_⟩
      rcases List.mem_append.mp hrow with hrow | hrow
      · exact hins.1.stored _ (mem_storedRows_of_partition hp hrow hhash)
      · exact hins.2 row hrow hhash
    | failed =>
      simp only [ObjectStore.upload, Bool.false_eq_true, reduceCtorEq, if_false]
      cases fallbackDir with
      | false => exact ⟨hs.refl, List.forall_mem_nil _⟩
      | true =>
        cases hfb : fallback p with
        | true => simpa using hrest
        | false => exact ⟨hs.refl, List.forall_mem_nil _⟩
    | written =>
      simp only [ObjectStore.upload, Bool.false_eq_true, reduceCtorEq, if_false]
      cases fallbackDir with
      | false => exact ⟨hkeeps, List.forall_mem_nil _⟩
      | true =>
        cases hfb : fallback p with
        | true => simpa using ⟨hkeeps.trans hins.1, hins.2⟩
        | false => exact ⟨hkeeps, List.forall_mem_nil _⟩

/-- The attempts of a background flush leave the store as it was, or with the file. -/
theorem uploadRetry_cases (p : L0Partition) (s : ObjectStore) (attempts : List UploadOutcome) :
    uploadRetry p s attempts = s ∧ .ok ∉ attempts ∨ uploadRetry p s attempts = s.insert p.key (.arrow p.rows) := by
  induction attempts generalizing s with
  | nil => exact .inl ⟨rfl, nofun⟩
  | cons outcome attempts ih =>
    rw [uploadRetry]
    cases outcome with
    | ok => exact .inr rfl
    | failed => simpa [ObjectStore.upload] using ih s
    | written =>
      rcases ih (s.insert p.key (.arrow p.rows)) with ⟨heq, -⟩ | heq
      · exact .inr heq
      · exact .inr (heq.trans (AList.insert_insert _))

theorem StoreSound.uploadRetry (hs : StoreSound R s) (hp : p.Sound) (hfresh : Fresh s p)
    (attempts : List UploadOutcome) :
    Keeps R s (MemTable.uploadRetry p s attempts) ∧ (.ok ∈ attempts → ∀ row ∈ p.rows,
      row.entityIDHash = entityHash16 R row.entityID →
        row ∈ storedRows R (MemTable.uploadRetry p s attempts) row.entityID) := by
  rcases uploadRetry_cases p s attempts with ⟨heq, hnone⟩ | heq
  · rw [heq]
    exact ⟨hs.refl, fun hok => absurd hok hnone⟩
  · rw [heq]
    exact ⟨hs.insert_l0 hp hfresh, fun _ row hrow hhash => mem_storedRows_of_partition hp hrow hhash⟩

/-- The rows a compaction merges are those of the L0 files of the hash. -/
theorem Compactable.mem_rows (h : Compactable R f s entityID)
    (hm : Merges R c f s entityID (entityHash8 R entityID) first rows)
    (hprune : c.enableDominancePruning = false) {row : Row} :
    row ∈ rows ↔ ∃ key ∈ s.listObjects (tierPrefix .l0 (entityHash8 R entityID)), row ∈ s.rowsAt key := by
  rw [hm.mem_iff_inL0 hprune fun key hkey => (h.1 key hkey).1]
  exact ⟨fun hin => hin.2, fun ⟨key, hkey, hrow⟩ => ⟨(h.1 key hkey).2 row hrow, key, hkey, hrow⟩⟩

theorem StoreSound.insert_l1 (hs : StoreSound R s) (h : Compactable R f s entityID)
    (hm : Merges R c f s entityID (entityHash8 R entityID) first rows)
    (hprune : c.enableDominancePruning = false) :
    Keeps R s (s.insert (l1KeyFor (entityHash8 R entityID) first.systemTime) (.arrow rows)) := by
  have hmem : ∀ row, row ∈ rows ↔ ∃ key ∈ s.listObjects (tierPrefix .l0 (entityHash8 R entityID)),
      row ∈ s.rowsAt key := fun row => h.mem_rows hm hprune
  have hfirst : ∀ row ∈ rows, first.systemTime.toUInt64 ≤ row.systemTime.toUInt64 := fun row hrow =>
    hm.first_le hprune hrow
  have hold : ∀ row ∈ s.rowsAt (l1KeyFor (entityHash8 R entityID) first.systemTime), row ∈ rows := by
    intro row hrow
    obtain ⟨key, hkey, hin⟩ := (hmem first).mp (List.mem_of_mem_head? hm.head)
    refine (hmem row).mpr (h.2 key hkey first hin (fun key' hkey' row' hrow' => ?_) row hrow)
    exact hfirst row' ((hmem row').mpr ⟨key', hkey', hrow'⟩)
  refine ⟨⟨fun id => (hs.layout id).insert_arrow (by decide) hfirst nofun fun _ row hrow _ => hold row hrow,
    fun mk lines hmk => ?_⟩, fun id => storedRows_subset_insert fun row hrow hbelongs => ?_⟩
  · by_cases heq : mk = l1KeyFor (entityHash8 R entityID) first.systemTime
    · rw [heq, AList.lookup_insert] at hmk
      cases hmk
    · rw [AList.lookup_insert_ne heq] at hmk
      exact hs.own mk lines hmk
  · -- the row is one of the compacted entity, so it is stored under the same hash
    obtain ⟨key, hkey, hin⟩ := (hmem row).mp (hold row hrow)
    have hhash : entityHash16 R id = entityHash16 R entityID := by
      have hid := of_decide_eq_true (Bool.and_eq_true_iff.mp hbelongs).1
      have hentity := of_decide_eq_true (Bool.and_eq_true_iff.mp ((h.1 key hkey).2 row hin)).1
      exact hid.symm.trans hentity
    have hsame : entityHash8 R entityID = entityHash8 R id := by
      rw [← keyHash_entityHash16, ← keyHash_entityHash16, hhash]
    rw [hsame]
    exact mem_storedRows_insert (by decide) (hold row hrow) hbelongs

theorem StoreSound.compaction (hs : StoreSound R s) (h : Compactable R f s entityID)
    (hprune : c.enableDominancePruning = false) :
    Keeps R s (Database.compaction R c f s entityID (entityHash8 R entityID)).1 := by
  rcases compaction_store_cases (R := R) (c := c) (f := f) (s := s)
    (h := entityHash8 R entityID) with heq | ⟨first, rows, hm, heq⟩ | ⟨first, rows, hw⟩
  · rw [heq]
    exact hs.refl
  · rw [heq]
    exact hs.insert_l1 h hm hprune
  · have hl1 := hs.insert_l1 h hw.merges hprune
    rw [hw.store]
    refine ⟨⟨fun id => (hl1.sound.layout id).insert_manifest fun hh key hkey row hrow _ => ?_,
      fun mk lines hmk => ?_⟩, fun id => ?_⟩
    · obtain ⟨hkey, hrow⟩ := mem_of_manifest_line hkey hrow
      exact exists_l1_of_mem ((h.mem_rows hw.merges hprune).mpr ⟨key, hkey, hrow⟩)
    · by_cases heq : mk = manifestKeyFor (entityHash8 R entityID) first.systemTime
      · rw [heq, AList.lookup_insert] at hmk
        cases hmk
        refine ⟨_, _, heq, fun key hkey => ?_⟩
        rw [parseManifest_compaction] at hkey
        exact (ObjectStore.mem_listObjects.mp (mem_compactionKeys.mp hkey)).2
      · rw [AList.lookup_insert_ne heq] at hmk
        exact hl1.sound.own mk lines hmk
    · rw [storedRows_insert_manifest]
      exact hl1.stored id

/-- A compaction by hash does nothing, or is one of the entity of a row under the hash. -/
theorem compactionByHash8_cases {listFails : Bool} {readFirst : ReadFault} {h : Hash8} :
    (compactionByHash8 R c listFails readFirst f s h).1 = s ∨
      ∃ key ∈ s.listObjects (tierPrefix .l0 h), ∃ row ∈ s.rowsAt key,
        (compactionByHash8 R c listFails readFirst f s h).1 = (Database.compaction R c f s row.entityID h).1 := by
  rw [compactionByHash8]
  split
  · exact .inl rfl
  · split
    · exact .inl rfl
    · next key keys hkeys =>
      split
      · exact .inl rfl
      · exact .inl rfl
      · next row rows hrows =>
        split
        · exact .inl rfl
        · refine .inr ⟨key, mem_compactionKeys.mp (hkeys ▸ List.mem_cons_self), row, ?_, rfl⟩
          exact (mem_rowsAt_of_readRows hrows List.mem_cons_self).1

end

/-! ### Sweeps -/

section
variable {R : Runtime} {s : ObjectStore}

variable {key : ObjectKey} {rf : ReapFaults}

theorem rowsAt_reap_subset {row : Row} (hrow : row ∈ (reap rf s).1.rowsAt key) : row ∈ s.rowsAt key := by
  have hkey := ObjectStore.lookup_of_mem_rowsAt hrow
  rcases reap_spec (f := rf) (s := s) key with hkept | ⟨hgone, -⟩
  · rw [hkept] at hkey
    rwa [ObjectStore.rowsAt_of_lookup hkey]
  · rw [hgone] at hkey
    cases hkey

theorem lookup_of_lookup_reap {obj : StoredObject}
    (hkey : (reap rf s).1.lookup key = some obj) : s.lookup key = some obj := by
  rcases reap_spec (f := rf) (s := s) key with hkept | ⟨hgone, -⟩
  · exact hkept ▸ hkey
  · rw [hgone] at hkey
    cases hkey

theorem rowsAt_reap_of_l1 {h : Hash8} {row : Row}
    (hkey : key ∈ s.listObjects (tierPrefix .l1 h)) (hrow : row ∈ s.rowsAt key) :
    key ∈ (reap rf s).1.listObjects (tierPrefix .l1 h) ∧ row ∈ (reap rf s).1.rowsAt key := by
  have hpre := (ObjectStore.mem_listObjects.mp hkey).2
  have hl0 : ¬ Tier.l0.dir <+: key := by
    intro hl0
    obtain ⟨rest, rfl⟩ := hl0
    obtain ⟨rest', hrest⟩ := dir_isPrefix_tierPrefix hpre
    simp [Tier.dir] at hrest
  have hlookup := lookup_reap_of_not_l0 (f := rf) (ObjectStore.lookup_of_mem_rowsAt hrow) hl0
  refine ⟨ObjectStore.mem_listObjects.mpr ⟨ObjectStore.mem_of_lookup hlookup, hpre⟩, ?_⟩
  rwa [ObjectStore.rowsAt_of_lookup hlookup]

theorem mem_listObjects_of_reap {pre : Bytes}
    (hkey : key ∈ (reap rf s).1.listObjects pre) : key ∈ s.listObjects pre := by
  obtain ⟨obj, hobj⟩ := ObjectStore.lookup_of_mem_listObjects hkey
  exact ObjectStore.mem_listObjects.mpr
    ⟨ObjectStore.mem_of_lookup (lookup_of_lookup_reap hobj), (ObjectStore.mem_listObjects.mp hkey).2⟩

/-- **A sweep** keeps a sound store sound and every row stored, whatever fails in it. -/
theorem StoreSound.reap (hs : StoreSound R s) (rf : ReapFaults) : Keeps R s (Database.reap rf s).1 := by
  refine ⟨⟨fun id => ⟨fun t ht key hkey m hm row hrow => ?_, fun mk hmk lines hlines key hkey row hrow hbelongs => ?_⟩,
    fun mk lines hmk => hs.own mk lines (lookup_of_lookup_reap hmk)⟩, fun id row hrow => ?_⟩
  · exact (hs.layout id).keyed t ht key (mem_listObjects_of_reap hkey) m hm row (rowsAt_reap_subset hrow)
  · have hlines' : lines ∈ s.readLines mk false := by
      obtain ⟨obj, hobj⟩ := ObjectStore.lookup_of_mem_listObjects hmk
      have hobj' := lookup_of_lookup_reap hobj
      simp only [ObjectStore.readLines, hobj] at hlines
      simpa only [ObjectStore.readLines, hobj'] using hlines
    obtain ⟨l1Key, hl1Key, hrow'⟩ := (hs.layout id).merged mk (mem_listObjects_of_reap hmk) lines hlines' key hkey row
      (rowsAt_reap_subset hrow) hbelongs
    obtain ⟨hkept, hrow''⟩ := rowsAt_reap_of_l1 hl1Key hrow'
    exact ⟨l1Key, hkept, hrow''⟩
  · obtain ⟨hbelongs, t, ht, key, hkey, hrow⟩ := hrow
    have hlookup := ObjectStore.lookup_of_mem_rowsAt hrow
    have hpre := (ObjectStore.mem_listObjects.mp hkey).2
    rcases reap_spec (f := rf) (s := s) key with hkept | ⟨-, mk, lines, hreap, heq | hlisted⟩
    · rw [hlookup] at hkept
      exact ⟨hbelongs, t, ht, key, ObjectStore.mem_listObjects.mpr ⟨ObjectStore.mem_of_lookup hkept, hpre⟩,
        by rwa [ObjectStore.rowsAt_of_lookup hkept]⟩
    · rw [heq, hreap.manifest] at hlookup
      cases hlookup
    · -- a deleted file is in a manifest of its own hash, so its rows are in an L1 file
      obtain ⟨h, m, rfl, hown⟩ := hs.own mk lines hreap.manifest
      obtain ⟨-, rfl⟩ := tierPrefix_unique (hown key hlisted) hpre
      obtain ⟨l1Key, hl1Key, hrow'⟩ := (hs.layout id).merged _ (ObjectStore.mem_listObjects.mpr
        ⟨ObjectStore.mem_of_lookup hreap.manifest, List.prefix_append _ _⟩) lines (readLines_of_lookup hreap.manifest)
        key hlisted row hrow hbelongs
      obtain ⟨hkept, hrow''⟩ := rowsAt_reap_of_l1 hl1Key hrow'
      exact ⟨hbelongs, .l1, by decide, l1Key, hkept, hrow''⟩

end

/-! ### Runs -/

/-- The row is found by the queries it passes the filters of, unless a later row or the caps stand before it. -/
structure Found (R : Runtime) (s : ObjectStore) (row : Row) : Prop where
  asOf : ∀ (r : Resolver) (v tx : Int64), r.runtime = R → row.validTimeStart ≤ v → v < row.validTimeEnd →
    row.systemTime ≤ tx → WithinCap r.config .none s (entityHash8 R row.entityID) tx →
      ∃ ev, r.asOf .none s ⟨row.entityID, v, tx⟩ = .ok ev ∧ row.systemTime ≤ ev.systemTime
  range : ∀ (r : Resolver) (q : RangeQuery), r.runtime = R → q.entityID = row.entityID → q.validLoNs < q.validHiNs →
    q.admitsTimes row.toTriTemporalEvent = true →
    WithinCap r.config .none s (entityHash8 R row.entityID) q.txTimeNs →
      ∃ evs truncated, r.range .none s q = .ok (evs, truncated) ∧
        (truncated = false → row.toTriTemporalEvent ∈ evs)

structure QueryTier.Sound (R : Runtime) (t : QueryTier) : Prop where
  table : t.table.WF
  /-- The rows on their way to the store. -/
  buffered : ∀ row ∈ t.table.buffered, row.entityIDHash = entityHash16 R row.entityID ∧ 0 < row.systemTime ∧
    row.entityID ≠ []
  store : StoreSound R t.store

section
variable {R : Runtime} {xxhash : Bytes → UInt64} {t t' : QueryTier} {s : ObjectStore} {row : Row}
  {attempts : List UploadOutcome}

/-- **A stored row after time zero is found.** -/
theorem found_of_stored (hlayout : Layout R s row.entityID) (hrow : row ∈ storedRows R s row.entityID)
    (hid : row.entityID ≠ []) (hpos : 0 < row.systemTime) : Found R s row := by
  constructor
  · rintro r v tx rfl hlo hhi htx hcap
    have hcand : row.toTriTemporalEvent ∈ r.stored s ⟨row.entityID, v, tx⟩ :=
      ⟨row, hrow, admitsTimes_iff.mpr ⟨htx, hlo, hhi⟩, rfl⟩
    have hdur : row.toTriTemporalEvent ∈ r.durable .none s ⟨row.entityID, v, tx⟩ :=
      (stored_iff_durable (q := ⟨row.entityID, v, tx⟩) hlayout hcap (fun _ => rfl) hpos).mpr hcand
    obtain ⟨ev, hok, -, hle⟩ := asOf_of_candidate hid rfl rfl (.inl hdur) hpos
    exact ⟨ev, hok, hle⟩
  · rintro r q rfl hentity hwindow hadm hcap
    rw [← hentity] at hlayout hrow hcap hid
    obtain ⟨tier, htier, key, hkey, hscan, hin⟩ := hlayout.exists_scanned hcap hrow
    have htx : row.systemTime ≤ q.txTimeNs := by
      simp only [RangeQuery.admitsTimes, Bool.and_eq_true, Bool.not_eq_true', decide_eq_false_iff_not,
        Int64.not_lt] at hadm
      exact hadm.1
    have hskip : r.config.skips q.txTimeNs key = false := by
      by_contra hskip
      have hneg := hlayout.neg_of_skips htier hkey hin (by simpa using hskip) htx
      exact absurd (Int64.lt_trans hneg hpos) Int64.lt_irrefl
    refine range_of_row hid hwindow rfl rfl hscan (fileRows_of_not_skips hskip rfl hin) hin ?_
    have hbelongs := hrow.1
    simp only [belongs, Bool.and_eq_true] at hbelongs
    simp [RangeQuery.admits, hbelongs, hadm]

theorem buffered_flush (m : MemTable) (s : ObjectStore) (upload : L0Partition → UploadOutcome)
    (fallback : L0Partition → Bool) :
    (m.flush s upload fallback).1.buffered = m.frozen.flatten.flatMap L0Partition.rows := by
  unfold MemTable.flush
  split
  · next hcount =>
    rw [MemTable.buffered, Arena.rows_eq_nil_iff.mpr hcount, List.append_nil]
  · simp [MemTable.buffered, Arena.new, Arena.rows]

variable {m : MemTable} {ps : List L0Partition} {out : List TierEvent} {i : TierStep} {fallbackDir : Bool}
  {fallback : L0Partition → Bool} {upload : L0Partition → UploadOutcome}

theorem MemTable.WF.flush (h : m.WF) (s : ObjectStore) (upload : L0Partition → UploadOutcome)
    (fallback : L0Partition → Bool) : (m.flush s upload fallback).1.WF := by
  unfold MemTable.flush
  split
  · exact h
  · exact ⟨fun _ => rfl, h.sound⟩

theorem store_flush (m : MemTable) (s : ObjectStore) (upload : L0Partition → UploadOutcome)
    (fallback : L0Partition → Bool) :
    (m.flush s upload fallback).2 =
      MemTable.flushPartitions m.fallbackDir upload fallback s (partitions m.skipList) := by
  unfold MemTable.flush
  split
  · next hcount =>
    have hnil : partitions m.skipList = [] := by
      rw [partitions, Arena.rows_eq_nil_iff.mpr hcount]
      rfl
    rw [hnil]
    rfl
  · rfl

theorem mem_partition_of_flushedRows (hrow : row ∈ flushedRows fallbackDir upload fallback ps) :
    ∃ p ∈ ps, row ∈ p.rows := by
  induction ps with
  | nil => cases hrow
  | cons p ps ih =>
    have hrest : row ∈ flushedRows fallbackDir upload fallback ps → ∃ p' ∈ p :: ps, row ∈ p'.rows := fun hrow => by
      obtain ⟨p', hp', hrow⟩ := ih hrow
      exact ⟨p', List.mem_cons_of_mem _ hp', hrow⟩
    rw [flushedRows] at hrow
    split at hrow
    · rcases List.mem_append.mp hrow with hrow | hrow
      · exact ⟨p, List.mem_cons_self, hrow⟩
      · exact hrest hrow
    · split at hrow
      · exact hrest hrow
      · cases hrow

theorem mem_rows_iff_partitions {a : Arena} : row ∈ a.rows ↔ ∃ p ∈ partitions a, row ∈ p.rows := by
  rw [← rows_partitions a, List.mem_flatMap]

theorem mem_buffered_iff :
    row ∈ m.buffered ↔ (∃ ps ∈ m.frozen, ∃ p ∈ ps, row ∈ p.rows) ∨ row ∈ m.skipList.rows := by
  simp only [MemTable.buffered, List.mem_append, List.mem_flatMap, List.mem_flatten]
  constructor
  · rintro (⟨p, ⟨ps, hps, hp⟩, hrow⟩ | hrow)
    · exact .inl ⟨ps, hps, p, hp, hrow⟩
    · exact .inr hrow
  · rintro (⟨ps, hps, p, hp, hrow⟩ | hrow)
    · exact .inl ⟨p, ⟨ps, hps, hp⟩, hrow⟩
    · exact .inr hrow

/-- One partition of a background flush: the rows that are still on their way, and the others. -/
theorem frozen_background {i : ℕ} {p : L0Partition} (hi : m.frozen[i]? = some (p :: ps)) :
    m.background s i attempts =
      ({ m with frozen := m.frozen.set i ps }, MemTable.uploadRetry p s (attempts.take 10)) ∧
    (∀ qs ∈ m.frozen.set i ps, ∃ qs' ∈ m.frozen, qs ⊆ qs') ∧
    ∀ qs ∈ m.frozen, ∃ qs' ∈ m.frozen.set i ps, qs ⊆ p :: qs' := by
  have hmem : p :: ps ∈ m.frozen := List.mem_of_getElem? hi
  refine ⟨by simp only [MemTable.background, hi], fun qs hqs => ?_, fun qs hqs => ?_⟩
  · rcases List.mem_or_eq_of_mem_set hqs with hqs | rfl
    · exact ⟨qs, hqs, List.Subset.refl _⟩
    · exact ⟨p :: qs, hmem, List.subset_cons_self _ _⟩
  · obtain ⟨j, hj⟩ := List.getElem?_of_mem hqs
    by_cases hij : i = j
    · subst hij
      rw [hi] at hj
      cases hj
      refine ⟨ps, List.mem_set (by exact (List.getElem?_eq_some_iff.mp hi).1) ps, List.Subset.refl _⟩
    · refine ⟨qs, List.mem_of_getElem? (i := j) ?_, List.subset_cons_self _ _⟩
      rw [List.getElem?_set_ne hij, hj]

theorem background_of_done {i : ℕ} (hi : ¬ ∃ p ps, m.frozen[i]? = some (p :: ps)) :
    m.background s i attempts = (m, s) ∧ uploadedRows m i attempts = [] := by
  constructor
  · unfold MemTable.background
    split
    · next p ps hps => exact absurd ⟨p, ps, hps⟩ hi
    · rfl
  · unfold uploadedRows
    split
    · next p ps hps => exact absurd ⟨p, ps, hps⟩ hi
    · rfl

/-- What a step makes of the table: only a write adds a row to those on their way. -/
theorem QueryTier.step_table (hwf : t.table.WF) (hstep : t.step R xxhash i = some (t', out)) :
    t'.table.WF ∧ ∀ row ∈ t'.table.buffered,
      row ∈ t.table.buffered ∨ ∃ ev, i = .write ev ∧ row = eventRow R xxhash ev := by
  cases i with
  | write ev =>
    cases hstep
    by_cases hacc : t.table.Accepts R xxhash ev
    · obtain ⟨-, hwf', hperm⟩ := hacc.write hwf
      refine ⟨hwf', fun row hrow => ?_⟩
      rcases List.mem_cons.mp (hperm.mem_iff.mp hrow) with rfl | hrow
      · exact .inr ⟨ev, rfl, rfl⟩
      · exact .inl hrow
    · dsimp only
      rw [(write_of_not_accepts hacc).1]
      exact ⟨hwf, fun row hrow => .inl hrow⟩
  | flush upload fallback =>
    cases hstep
    refine ⟨hwf.flush _ _ _, fun row hrow => .inl ?_⟩
    rw [buffered_flush] at hrow
    exact List.mem_append_left _ hrow
  | background i attempts =>
    cases hstep
    dsimp only
    by_cases hi : ∃ p ps, t.table.frozen[i]? = some (p :: ps)
    · obtain ⟨p, ps, hi⟩ := hi
      obtain ⟨hback, hold, -⟩ := frozen_background (s := t.store) hi
      rw [hback]
      refine ⟨⟨hwf.fresh, fun qs hqs p' hp' => ?_⟩, fun row hrow => .inl ?_⟩
      · obtain ⟨qs', hqs', hsub⟩ := hold qs hqs
        exact hwf.sound qs' hqs' p' (hsub hp')
      · rw [mem_buffered_iff] at hrow ⊢
        rcases hrow with ⟨qs, hqs, p', hp', hrow⟩ | hrow
        · obtain ⟨qs', hqs', hsub⟩ := hold qs hqs
          exact .inl ⟨qs', hqs', p', hsub hp', hrow⟩
        · exact .inr hrow
    · rw [(background_of_done hi).1]
      exact ⟨hwf, fun row hrow => .inl hrow⟩
  | compaction c f entityID =>
    cases hstep
    exact ⟨hwf, fun row hrow => .inl hrow⟩
  | compactionByHash8 c listFails readFirst f h =>
    cases hstep
    exact ⟨hwf, fun row hrow => .inl hrow⟩
  | reap f =>
    cases hstep
    exact ⟨hwf, fun row hrow => .inl hrow⟩

/-- What a safe step makes of the store: it keeps it sound and loses no row, and what it reports as flushed is
stored. -/
theorem QueryTier.Sound.step_store (hs : t.Sound R) (hsafe : i.Safe R t)
    (hstep : t.step R xxhash i = some (t', out)) :
    Keeps R t.store t'.store ∧
      ∀ row, .flushed row ∈ out → row ∈ t.table.buffered ∧ row ∈ storedRows R t'.store row.entityID := by
  cases i with
  | write ev =>
    cases hstep
    refine ⟨hs.store.refl, fun row hrow => ?_⟩
    split at hrow
    · cases List.mem_singleton.mp hrow
    · cases hrow
  | flush upload fallback =>
    cases hstep
    obtain ⟨hkeeps, hstored⟩ := hs.store.flushPartitions
      (sound_partitions _) hsafe.1 hsafe.2
    dsimp only
    rw [store_flush]
    refine ⟨hkeeps, fun row hrow => ?_⟩
    obtain ⟨row', hrow', heq⟩ := List.mem_map.mp hrow
    cases heq
    have hbuf : row ∈ t.table.buffered := mem_buffered_iff.mpr
      (.inr (mem_rows_iff_partitions.mpr (mem_partition_of_flushedRows hrow')))
    exact ⟨hbuf, hstored row hrow' (hs.buffered row hbuf).1⟩
  | background i attempts =>
    cases hstep
    dsimp only
    by_cases hi : ∃ p ps, t.table.frozen[i]? = some (p :: ps)
    · obtain ⟨p, ps, hi⟩ := hi
      have hmem : p :: ps ∈ t.table.frozen := List.mem_of_getElem? hi
      obtain ⟨hkeeps, hstored⟩ := hs.store.uploadRetry (hs.table.sound _ hmem p List.mem_cons_self)
        (hsafe (p :: ps) hi p rfl) (attempts.take 10)
      rw [(frozen_background hi).1]
      refine ⟨hkeeps, fun row hrow => ?_⟩
      obtain ⟨row', hrow', heq⟩ := List.mem_map.mp hrow
      cases heq
      simp only [uploadedRows, hi] at hrow'
      split at hrow'
      · next hok =>
        have hbuf := mem_buffered_iff.mpr (.inl ⟨_, hmem, p, List.mem_cons_self, hrow'⟩)
        exact ⟨hbuf, hstored hok row hrow' (hs.buffered row hbuf).1⟩
      · cases hrow'
    · obtain ⟨hsame, hnone⟩ := background_of_done (s := t.store) hi
      rw [hsame, hnone]
      exact ⟨hs.store.refl, nofun⟩
  | compaction c f entityID =>
    cases hstep
    exact ⟨hs.store.compaction hsafe.2 hsafe.1, nofun⟩
  | compactionByHash8 c listFails readFirst f h =>
    cases hstep
    refine ⟨?_, nofun⟩
    rcases compactionByHash8_cases (R := R) (c := c) (f := f) (s := t.store)
      (h := h) with heq | ⟨key, hkey, row, hrow, heq⟩
    · dsimp only
      rw [heq]
      exact hs.store.refl
    · obtain ⟨rfl, hcomp⟩ := hsafe.2 key hkey row hrow
      dsimp only
      rw [heq]
      exact hs.store.compaction hcomp hsafe.1
  | reap f =>
    cases hstep
    exact ⟨hs.store.reap f, nofun⟩

/-- **Every safe step keeps the invariant and loses no row**; what it reports as flushed is stored. -/
theorem QueryTier.Sound.step (hs : t.Sound R) (hsafe : i.Safe R t)
    (hstep : t.step R xxhash i = some (t', out)) :
    t'.Sound R ∧ Keeps R t.store t'.store ∧
      ∀ row, .flushed row ∈ out → row ∈ storedRows R t'.store row.entityID ∧ 0 < row.systemTime ∧
        row.entityID ≠ [] := by
  obtain ⟨hwf, hbuffered⟩ := QueryTier.step_table hs.table hstep
  obtain ⟨hkeeps, hflushed⟩ := hs.step_store hsafe hstep
  refine ⟨⟨hwf, fun row hrow => ?_, hkeeps.sound⟩, hkeeps, fun row hrow => ?_⟩
  · rcases hbuffered row hrow with hrow | ⟨ev, rfl, rfl⟩
    · exact hs.buffered row hrow
    · exact ⟨rfl, hsafe.1, hsafe.2⟩
  · obtain ⟨hbuf, hstored⟩ := hflushed row hrow
    exact ⟨hstored, (hs.buffered row hbuf).2⟩

def QueryTier.new (arenaSize maxEntries : UInt32) (fallbackDir : Bool) : QueryTier :=
  ⟨.new arenaSize maxEntries fallbackDir, ∅⟩

theorem sound_new (arenaSize maxEntries : UInt32) (fallbackDir : Bool) :
    (QueryTier.new arenaSize maxEntries fallbackDir).Sound R :=
  ⟨wf_new _ _ _, by simp [QueryTier.new, MemTable.buffered, MemTable.new, Arena.new, Arena.rows], storeSound_empty⟩

/-- **In every run of safe steps, every row ever flushed is found in every state reached.** -/
theorem flushed_rows_stay_found {arenaSize maxEntries : UInt32} {fallbackDir : Bool} {steps : List TierStep}
    {log : List TierEvent}
    (hsafe : Meets (QueryTier.step R xxhash) (fun t i => i.Safe R t) (.new arenaSize maxEntries fallbackDir) steps)
    (hrun : run (QueryTier.step R xxhash) (.new arenaSize maxEntries fallbackDir) steps = some (t, log))
    (hrow : .flushed row ∈ log) : Found R t.store row := by
  have hinv := run_invariant (P := fun t log => QueryTier.Sound R t ∧ ∀ row, .flushed row ∈ log →
      row ∈ storedRows R t.store row.entityID ∧ 0 < row.systemTime ∧ row.entityID ≠ [])
    (fun t log i t' out hP hG hstep => by
      obtain ⟨hsound, hkeeps, hout⟩ := hP.1.step hG hstep
      refine ⟨hsound, fun row hrow => ?_⟩
      rcases List.mem_append.mp hrow with hrow | hrow
      · exact ⟨hkeeps.stored _ (hP.2 row hrow).1, (hP.2 row hrow).2⟩
      · exact hout row hrow)
    (show _ ∧ ∀ row, TierEvent.flushed row ∈ [] → _ from ⟨sound_new arenaSize maxEntries fallbackDir, nofun⟩) hsafe hrun
  obtain ⟨hstored, hpos, hid⟩ := hinv.2 row hrow
  exact found_of_stored (hinv.1.store.layout _) hstored hid hpos

/-- The uploads of the step succeed. -/
def TierStep.Uploads (t : QueryTier) : TierStep → Prop
  | .flush upload _ => ∀ p ∈ partitions t.table.skipList, upload p = .ok
  | .background i attempts => ∀ ps ∈ t.table.frozen[i]?, ps ≠ [] → .ok ∈ attempts.take 10
  | _ => True

instance (t : QueryTier) : ∀ step : TierStep, Decidable (step.Uploads t)
  | .write _ => inferInstanceAs (Decidable True)
  | .flush _ _ => inferInstanceAs (Decidable (∀ p ∈ _, _))
  | .background _ _ => inferInstanceAs (Decidable (∀ ps ∈ _, _ → _))
  | .compaction _ _ _ => inferInstanceAs (Decidable True)
  | .compactionByHash8 _ _ _ _ _ => inferInstanceAs (Decidable True)
  | .reap _ => inferInstanceAs (Decidable True)

theorem flushedRows_of_ok (hok : ∀ p ∈ ps, upload p = .ok) :
    flushedRows fallbackDir upload fallback ps = ps.flatMap L0Partition.rows := by
  induction ps with
  | nil => rfl
  | cons p ps ih =>
    rw [flushedRows, if_pos (hok p List.mem_cons_self), ih fun p hp => hok p (List.mem_cons_of_mem _ hp),
      List.flatMap_cons]

theorem flushPartitions_of_ok (hok : ∀ p ∈ ps, upload p = .ok) (s : ObjectStore) :
    (MemTable.flushPartitions fallbackDir upload fallback s ps).2 = none := by
  induction ps generalizing s with
  | nil => rfl
  | cons p ps ih =>
    rw [MemTable.flushPartitions, hok p List.mem_cons_self]
    exact ih (fun p hp => hok p (List.mem_cons_of_mem _ hp)) _

/-- **A row on its way stays so or is stored**, if the uploads succeed. -/
theorem QueryTier.Sound.step_buffered (hs : t.Sound R) (hsafe : i.Safe R t)
    (hup : i.Uploads t) (hstep : t.step R xxhash i = some (t', out)) :
    (∀ row ∈ t.table.buffered, row ∈ t'.table.buffered ∨ row ∈ storedRows R t'.store row.entityID) ∧
      ∀ row, .written row ∈ out → row ∈ t'.table.buffered := by
  obtain ⟨-, -, hflushed⟩ := hs.step hsafe hstep
  cases i with
  | write ev =>
    cases hstep
    by_cases hacc : t.table.Accepts R xxhash ev
    · obtain ⟨hok, -, hperm⟩ := hacc.write hs.table
      refine ⟨fun row hrow => .inl (hperm.mem_iff.mpr (List.mem_cons_of_mem _ hrow)), fun row hrow => ?_⟩
      rw [hok] at hrow
      cases List.mem_singleton.mp hrow
      exact hperm.mem_iff.mpr List.mem_cons_self
    · obtain ⟨hsame, herr⟩ := write_of_not_accepts hacc
      refine ⟨fun row hrow => .inl (by rw [hsame]; exact hrow), fun row hrow => ?_⟩
      rw [if_neg (by simpa using herr)] at hrow
      cases hrow
  | flush upload fallback =>
    cases hstep
    refine ⟨fun row hrow => ?_, fun row hrow => ?_⟩
    · dsimp only
      rw [buffered_flush]
      rcases List.mem_append.mp hrow with hrow | hrow
      · exact .inl hrow
      · refine .inr (hflushed row ?_).1
        rw [flushedRows_of_ok hup, rows_partitions]
        exact List.mem_map_of_mem hrow
    · obtain ⟨_, -, heq⟩ := List.mem_map.mp hrow
      cases heq
  | background i attempts =>
    cases hstep
    refine ⟨fun row hrow => ?_, fun row hrow => ?_⟩
    · by_cases hi : ∃ p ps, t.table.frozen[i]? = some (p :: ps)
      · obtain ⟨p, ps, hi⟩ := hi
        obtain ⟨hback, -, hrest⟩ := frozen_background (s := t.store) hi
        rcases mem_buffered_iff.mp hrow with ⟨qs, hqs, p', hp', hrow⟩ | hrow
        · obtain ⟨qs', hqs', hsub⟩ := hrest qs hqs
          rcases List.mem_cons.mp (hsub hp') with rfl | hp'
          · refine .inr (hflushed row ?_).1
            simp only [uploadedRows, hi, if_pos (hup _ hi (List.cons_ne_nil _ _))]
            exact List.mem_map_of_mem hrow
          · left
            dsimp only
            rw [hback]
            exact mem_buffered_iff.mpr (.inl ⟨qs', hqs', p', hp', hrow⟩)
        · left
          dsimp only
          rw [hback]
          exact mem_buffered_iff.mpr (.inr hrow)
      · left
        dsimp only
        rw [(background_of_done hi).1]
        exact hrow
    · obtain ⟨_, -, heq⟩ := List.mem_map.mp hrow
      cases heq
  | compaction c f entityID =>
    cases hstep
    exact ⟨fun row hrow => .inl hrow, nofun⟩
  | compactionByHash8 c listFails readFirst f h =>
    cases hstep
    exact ⟨fun row hrow => .inl hrow, nofun⟩
  | reap f =>
    cases hstep
    exact ⟨fun row hrow => .inl hrow, nofun⟩

/-- What is written in a run of safe steps whose uploads succeed is on its way or stored. -/
theorem run_written {t₀ : QueryTier} {steps : List TierStep} {log : List TierEvent} (h₀ : t₀.Sound R)
    (hG : Meets (QueryTier.step R xxhash) (fun t i => i.Safe R t ∧ i.Uploads t) t₀ steps)
    (hrun : run (QueryTier.step R xxhash) t₀ steps = some (t, log)) :
    t.Sound R ∧ ∀ row, .written row ∈ log →
      (row ∈ t.table.buffered ∨ row ∈ storedRows R t.store row.entityID) ∧ 0 < row.systemTime ∧ row.entityID ≠ [] :=
  run_invariant (P := fun t log => QueryTier.Sound R t ∧ ∀ row, .written row ∈ log →
      (row ∈ t.table.buffered ∨ row ∈ storedRows R t.store row.entityID) ∧ 0 < row.systemTime ∧ row.entityID ≠ [])
    (fun t log i t' out hP hG hstep => by
      obtain ⟨hsound, hkeeps, -⟩ := hP.1.step hG.1 hstep
      obtain ⟨hkept, hnew⟩ := hP.1.step_buffered hG.1 hG.2 hstep
      refine ⟨hsound, fun row hrow => ?_⟩
      rcases List.mem_append.mp hrow with hrow | hrow
      · obtain ⟨hin | hin, hok⟩ := hP.2 row hrow
        · exact ⟨hkept row hin, hok⟩
        · exact ⟨.inr (hkeeps.stored _ hin), hok⟩
      · exact ⟨.inl (hnew row hrow), (hsound.buffered row (hnew row hrow)).2⟩)
    (show _ ∧ ∀ row, TierEvent.written row ∈ [] → _ from ⟨h₀, nofun⟩) hG hrun

def sampleEvent (systemTime validTimeStart validTimeEnd : Int64) : TriTemporalEvent :=
  ⟨[0x61], systemTime, validTimeStart, validTimeEnd, 0, 0, [], Runtime.sample.sha256 []⟩

/-- Two flushes, a compaction and a sweep. -/
def sampleLife : List TierStep :=
  [.write (sampleEvent 1 0 10), .flush (fun _ => .ok) (fun _ => true), .write (sampleEvent 2 0 10),
    .flush (fun _ => .ok) (fun _ => true), .compaction defaultCompactionConfig .none [0x61], .reap .none]

set_option maxRecDepth 100000 in
/-- The rows of both flushes are found. -/
theorem flushed_rows_stay_found_in_sample_life :
    ∃ t log, run (QueryTier.step .sample fun _ => 0) (.new 4096 100 true) sampleLife = some (t, log) ∧
      .flushed (sampleRow 1 0 10) ∈ log ∧ Found .sample t.store (sampleRow 1 0 10) := by
  have hflushed : ((run (QueryTier.step .sample fun _ => 0) (.new 4096 100 true) sampleLife).any
      fun result => .flushed (sampleRow 1 0 10) ∈ result.2) = true := by decide +kernel
  obtain ⟨⟨t, log⟩, hrun, hrow⟩ := (Option.any_eq_true _ _).mp hflushed
  exact ⟨t, log, hrun, of_decide_eq_true hrow,
    flushed_rows_stay_found (by decide +kernel) hrun (of_decide_eq_true hrow)⟩

/-- Two flushes of rows with the same system time. -/
def sameTimeLife : List TierStep :=
  [.write (sampleEvent 5 0 10), .flush (fun _ => .ok) (fun _ => true), .write (sampleEvent 5 20 30),
    .flush (fun _ => .ok) (fun _ => true)]

set_option maxRecDepth 100000 in
/-- The second file has the key of the first, whose row is then nowhere. -/
theorem flush_overwrites_a_file :
    ∃ t log, run (QueryTier.step .sample fun _ => 0) (.new 4096 100 true) sameTimeLife = some (t, log) ∧
      .flushed (sampleRow 5 0 10) ∈ log ∧
      sampleResolver.asOf .none t.store ⟨[0x61], 3, 5⟩ = .error .entityNotFound := by
  have hlost : ((run (QueryTier.step .sample fun _ => 0) (.new 4096 100 true) sameTimeLife).any fun result =>
      decide (.flushed (sampleRow 5 0 10) ∈ result.2) &&
        decide (sampleResolver.asOf .none result.1.store ⟨[0x61], 3, 5⟩ = .error .entityNotFound)) = true := by
    decide +kernel
  obtain ⟨⟨t, log⟩, hrun, hlost⟩ := (Option.any_eq_true _ _).mp hlost
  obtain ⟨hrow, hasOf⟩ := Bool.and_eq_true_iff.mp hlost
  exact ⟨t, log, hrun, of_decide_eq_true hrow, of_decide_eq_true hasOf⟩

end

end Sovereign.Database

import Sovereign.Database.Pruning
import Sovereign.Database.Lifecycle

/-!
# The skip by the time in a key

With `EnableFirstSysSkip`, a query downloads neither the files nor the manifests whose key bears a time after its
transaction time.  What a query sees of the store are the rows of the scanned files up to that time (`visibleFiles`),
and both `AsOf` and `Range` are functions of them (`foldl_scanStep_eq`, `scanWindowFiles_eq_batch`).

A manifest that is skipped no longer keeps its files out of the tail.  This is harmless where they are skipped too,
which is so if the time of a manifest is not after the times of the files it lists (`Timed`).  Flushes and compactions
keep the store so, with one exception: a compaction that prunes may drop the earliest rows, so the times of its
manifest are only bounded by the horizon.  The tail is also counted against `MaxL0Files`, and there the files that are
skipped take the place of files that are not.

`skip_is_transparent`: the answers of queries at or above all horizons do not depend on the skip, where the cap leaves
the tail alone or no file enters the tail by the skip of a manifest (`SkipSafe`).
-/

namespace Sovereign.Database

open Lib Sync MemTable

/-! ### What a query sees -/

def ResolverConfig.withSkip (c : ResolverConfig) (enable : Bool) : ResolverConfig :=
  { c with enableFirstSysSkip := enable }

def Resolver.withSkip (r : Resolver) (enable : Bool) : Resolver := { r with config := r.config.withSkip enable }

/-- The rows of a file up to the transaction time. -/
def visibleRows (c : ResolverConfig) (f : QueryFaults) (s : ObjectStore) (txTimeNs : Int64) (key : ObjectKey) :
    List Row :=
  ((fileRows c f s txTimeNs key).getD []).filter fun row => row.systemTime ≤ txTimeNs

/-- The scanned files that have such rows. -/
def visibleFiles (c : ResolverConfig) (f : QueryFaults) (s : ObjectStore) (h : Hash8) (txTimeNs : Int64) :
    List (List Row) :=
  ((scanKeys c f s h txTimeNs).map (visibleRows c f s txTimeNs)).filter (· ≠ [])

/-- The window with the live entries behind the rows of the files. -/
def Resolver.liveBehind (r : Resolver) (q : RangeQuery) (files : List TriTemporalEvent × Bool) :
    List TriTemporalEvent × Bool :=
  let live := scanWindowLive r.config q (files.1.map liveRowKey) files.1 (r.liveRead q.entityID q.txTimeNs)
  (live.1, files.2 || live.2)

section
variable {R : Runtime} {c : ResolverConfig} {r : Resolver} {f : QueryFaults} {s : ObjectStore} {h : Hash8}
  {txTimeNs : Int64}

theorem scanRecordBatch_visible (q : AsOfQuery) (rows : List Row) :
    scanFile R q (rows.filter fun row => row.systemTime ≤ q.txTimeNs) = scanFile R q rows := by
  unfold scanFile scanRecordBatch
  rw [List.filter_filter]
  congr 2
  refine List.filter_congr fun row _ => ?_
  by_cases hle : row.systemTime ≤ q.txTimeNs
  · simp [hle]
  · simp [AsOfQuery.admits, AsOfQuery.admitsTimes, hle, Int64.not_le.mp hle]

/-- **`AsOf` scans what it sees.** -/
theorem foldl_scanStep_eq (q : AsOfQuery) :
    (scanKeys r.config f s h q.txTimeNs).foldl (scanStep r f s q) none =
      (visibleFiles r.config f s h q.txTimeNs).foldl
        (fun best rows => laterOf TriTemporalEvent.systemTime best (scanFile r.runtime q rows)) none := by
  rw [visibleFiles, List.foldl_filter, List.foldl_map]
  congr 1
  funext best key
  have hempty : scanFile r.runtime q [] = none := rfl
  have hstep : scanStep r f s q best key = laterOf TriTemporalEvent.systemTime best
      (scanFile r.runtime q (visibleRows r.config f s q.txTimeNs key)) := by
    unfold scanStep visibleRows
    rw [scanRecordBatch_visible]
    cases fileRows r.config f s q.txTimeNs key with
    | none => rfl
    | some rows => rfl
  rw [hstep]
  split
  · rfl
  · next hnil =>
    rw [show visibleRows r.config f s q.txTimeNs key = [] by simpa using hnil, hempty]
    rfl

theorem scanWindowRecordBatch_append (q : RangeQuery) (collected : List TriTemporalEvent) (rows rows' : List Row) :
    scanWindowRecordBatch R c q collected (rows ++ rows') =
      if (scanWindowRecordBatch R c q collected rows).2 then ((scanWindowRecordBatch R c q collected rows).1, true)
      else scanWindowRecordBatch R c q (scanWindowRecordBatch R c q collected rows).1 rows' := by
  induction rows generalizing collected with
  | nil => rfl
  | cons row rows ih =>
    rw [List.cons_append, scanWindowRecordBatch, scanWindowRecordBatch]
    split
    · exact ih collected
    · split
      · rfl
      · exact ih _

theorem scanWindowRecordBatch_visible (q : RangeQuery) (collected : List TriTemporalEvent) (rows : List Row) :
    scanWindowRecordBatch R c q collected (rows.filter fun row => row.systemTime ≤ q.txTimeNs) =
      scanWindowRecordBatch R c q collected rows := by
  induction rows generalizing collected with
  | nil => rfl
  | cons row rows ih =>
    by_cases hle : row.systemTime ≤ q.txTimeNs
    · rw [List.filter_cons_of_pos (by simpa using hle), scanWindowRecordBatch, scanWindowRecordBatch]
      simp only [ih]
    · have hadm : q.admits R row = false := by
        simp [RangeQuery.admits, RangeQuery.admitsTimes, Int64.not_le.mp hle]
      rw [List.filter_cons_of_neg (by simpa using hle), scanWindowRecordBatch, hadm, ih]
      rfl

/-- **`Range` scans what it sees.** -/
theorem scanWindowFiles_eq_batch (q : RangeQuery) (collected : List TriTemporalEvent) :
    scanWindowFiles r f s q collected (scanKeys r.config f s h q.txTimeNs) =
      scanWindowRecordBatch r.runtime r.config q collected (visibleFiles r.config f s h q.txTimeNs).flatten := by
  rw [visibleFiles, List.flatten_filter_ne_nil]
  generalize scanKeys r.config f s h q.txTimeNs = keys
  induction keys generalizing collected with
  | nil => rfl
  | cons key keys ih =>
    rw [scanWindowFiles, List.map_cons, List.flatten_cons, scanWindowRecordBatch_append, visibleRows,
      scanWindowRecordBatch_visible]
    cases fileRows r.config f s q.txTimeNs key with
    | none => exact ih collected
    | some rows =>
      dsimp only [Option.getD_some]
      split
      · rfl
      · exact ih _

theorem scanWindowRecordBatch_withSkip (q : RangeQuery) (enable : Bool) (collected : List TriTemporalEvent)
    (rows : List Row) :
    scanWindowRecordBatch R (c.withSkip enable) q collected rows = scanWindowRecordBatch R c q collected rows := by
  induction rows generalizing collected with
  | nil => rfl
  | cons row rows ih =>
    rw [scanWindowRecordBatch, scanWindowRecordBatch]
    simp only [ih]
    rfl

theorem scanWindowLive_withSkip (q : RangeQuery) (enable : Bool) (seen : List (Int64 × Digest))
    (collected evs : List TriTemporalEvent) :
    scanWindowLive (c.withSkip enable) q seen collected evs = scanWindowLive c q seen collected evs := by
  induction evs generalizing seen collected with
  | nil => rfl
  | cons ev evs ih =>
    rw [scanWindowLive, scanWindowLive]
    simp only [ih]
    rfl

/-- **The answers depend on what the query sees only.** -/
theorem asOf_withSkip_eq {q : AsOfQuery}
    (hsame : visibleFiles (r.config.withSkip true) f s (entityHash8 r.runtime q.entityID) q.txTimeNs =
      visibleFiles (r.config.withSkip false) f s (entityHash8 r.runtime q.entityID) q.txTimeNs) :
    (r.withSkip true).asOf f s q = (r.withSkip false).asOf f s q := by
  have hdom : (r.withSkip true).dominant f s q = (r.withSkip false).dominant f s q := by
    unfold Resolver.dominant
    rw [foldl_scanStep_eq, foldl_scanStep_eq]
    exact congrArg (fun files => List.foldl (liveStep q) (List.foldl _ none files) _) hsame
  unfold Resolver.asOf
  rw [hdom]
  rfl

theorem window_withSkip (q : RangeQuery) (enable : Bool) :
    (r.withSkip enable).window f s q = r.liveBehind q (scanWindowRecordBatch r.runtime r.config q []
      (visibleFiles (r.config.withSkip enable) f s (entityHash8 r.runtime q.entityID) q.txTimeNs).flatten) := by
  have hfiles : scanWindowFiles (r.withSkip enable) f s q []
      (scanKeys (r.withSkip enable).config f s (entityHash8 r.runtime q.entityID) q.txTimeNs) =
        scanWindowRecordBatch r.runtime r.config q []
          (visibleFiles (r.config.withSkip enable) f s (entityHash8 r.runtime q.entityID) q.txTimeNs).flatten := by
    rw [scanWindowFiles_eq_batch]
    exact scanWindowRecordBatch_withSkip q enable [] _
  rw [← hfiles]
  unfold Resolver.window Resolver.liveBehind
  dsimp only
  rw [show (r.withSkip enable).config = r.config.withSkip enable from rfl, scanWindowLive_withSkip]
  rfl

theorem range_withSkip_eq {q : RangeQuery}
    (hsame : visibleFiles (r.config.withSkip true) f s (entityHash8 r.runtime q.entityID) q.txTimeNs =
      visibleFiles (r.config.withSkip false) f s (entityHash8 r.runtime q.entityID) q.txTimeNs) :
    (r.withSkip true).range f s q = (r.withSkip false).range f s q := by
  have hwindow : (r.withSkip true).window f s q = (r.withSkip false).window f s q := by
    rw [window_withSkip, window_withSkip, hsame]
  unfold Resolver.range
  rw [hwindow]
  rfl

end

/-! ### Times in keys -/

/-- The times in the keys of the store: that of a file is not after its rows, and that of an L0 file is the time of a
row; that of a manifest is not after the times of the files it lists, or not after `horizon`, and the L1 file of a
manifest is there. -/
structure Timed (horizon : Int64) (s : ObjectStore) : Prop where
  file : ∀ key rows, s.lookup key = some (.arrow rows) → ∃ t h m, key = objectKey t h m ∧ t ≠ .compaction ∧
    (∀ row ∈ rows, 0 ≤ row.systemTime ∧ m ≤ row.systemTime) ∧ (t = .l0 → ∃ row ∈ rows, row.systemTime = m)
  manifest : ∀ mk lines, s.lookup mk = some (.manifest lines) → ∃ h m, mk = manifestKeyFor h m ∧
    (∃ rows, s.lookup (l1KeyFor h m) = some (.arrow rows)) ∧
    ∀ key ∈ (parseManifest lines).2, ∃ m', key = l0KeyFor h m' ∧ (m ≤ m' ∨ m ≤ horizon)

section
variable {R : Runtime} {c : ResolverConfig} {r : Resolver} {f : QueryFaults} {s : ObjectStore} {h : Hash8}
  {txTimeNs horizon : Int64} {key : ObjectKey}

theorem skips_withSkip_false : (c.withSkip false).skips txTimeNs key = false := rfl

theorem skips_withSkip_objectKey {t : Tier} {m : Int64} :
    (c.withSkip true).skips txTimeNs (objectKey t h m) = true ↔ 0 ≤ m ∧ txTimeNs < m := by
  simp only [ResolverConfig.skips, ResolverConfig.withSkip, parseFirstSysFromKey_objectKey, Bool.true_and]
  by_cases hneg : m < 0
  · simp [hneg, Int64.not_le.mpr hneg]
  · simp [hneg, Int64.not_lt.mp hneg]

theorem lookup_of_listed {mk : ObjectKey} {fails : Bool} {lines : List ObjectKey}
    (hlines : s.readLines mk fails = some lines) (hkey : key ∈ (parseManifest lines).2) :
    s.lookup mk = some (.manifest lines) := by
  unfold ObjectStore.readLines at hlines
  split at hlines
  · next hobj =>
    cases hlines
    exact hobj
  · cases hlines
    simp [parseManifest] at hkey
  · cases hlines

theorem loadSupersededL0Keys_withSkip_subset :
    loadSupersededL0Keys (c.withSkip true) f s h txTimeNs ⊆ loadSupersededL0Keys (c.withSkip false) f s h txTimeNs := by
  intro key hkey
  obtain ⟨hlist, mk, hmk, -, hlines⟩ := mem_loadSupersededL0Keys.mp hkey
  exact mem_loadSupersededL0Keys.mpr ⟨hlist, mk, hmk, skips_withSkip_false, hlines⟩

/-- **A file that is no longer kept out of the tail is skipped.** -/
theorem Timed.skips_of_unlisted (hs : Timed horizon s) (htx : horizon ≤ txTimeNs)
    (hoff : key ∈ loadSupersededL0Keys (c.withSkip false) f s h txTimeNs)
    (hon : key ∉ loadSupersededL0Keys (c.withSkip true) f s h txTimeNs) :
    (c.withSkip true).skips txTimeNs key = true := by
  obtain ⟨hlist, mk, hmk, -, lines, hlines, hkey⟩ := mem_loadSupersededL0Keys.mp hoff
  have hskip : (c.withSkip true).skips txTimeNs mk = true := by
    by_contra hskip
    exact hon (mem_loadSupersededL0Keys.mpr ⟨hlist, mk, hmk, by simpa using hskip, lines, hlines, hkey⟩)
  obtain ⟨h', m, rfl, -, hlisted⟩ := hs.manifest mk lines (lookup_of_listed hlines hkey)
  obtain ⟨m', rfl, hle⟩ := hlisted key hkey
  obtain ⟨hpos, hlt⟩ := skips_withSkip_objectKey.mp hskip
  refine skips_withSkip_objectKey.mpr ?_
  rcases hle with hle | hle
  · exact ⟨Int64.le_trans hpos hle, Int64.lt_of_lt_of_le hlt hle⟩
  · exact absurd (Int64.lt_of_lt_of_le hlt (Int64.le_trans hle htx)) Int64.lt_irrefl

theorem Timed.filter_tailKeys (hs : Timed horizon s) (htx : horizon ≤ txTimeNs) :
    (tailKeys (c.withSkip true) f s h txTimeNs).filter (fun key => !(c.withSkip true).skips txTimeNs key) =
      (tailKeys (c.withSkip false) f s h txTimeNs).filter fun key => !(c.withSkip true).skips txTimeNs key := by
  rw [tailKeys, tailKeys, List.filter_filter, List.filter_filter]
  refine List.filter_congr fun key _ => ?_
  cases hskip : (c.withSkip true).skips txTimeNs key with
  | true => rfl
  | false =>
    have hiff : key ∈ loadSupersededL0Keys (c.withSkip true) f s h txTimeNs ↔
        key ∈ loadSupersededL0Keys (c.withSkip false) f s h txTimeNs := by
      refine ⟨fun hon => loadSupersededL0Keys_withSkip_subset hon, fun hoff => ?_⟩
      by_contra hon
      exact Bool.false_ne_true (hskip ▸ hs.skips_of_unlisted htx hoff hon)
    simp [hiff]

/-- Without the skip, the tail is not longer. -/
theorem withinCap_withSkip_false (hcap : WithinCap (c.withSkip true) f s h txTimeNs) :
    WithinCap (c.withSkip false) f s h txTimeNs := by
  have hle : (tailKeys (c.withSkip false) f s h txTimeNs).length ≤
      (tailKeys (c.withSkip true) f s h txTimeNs).length := by
    refine List.Sublist.length_le (List.monotone_filter_right _ fun key hkey => ?_)
    simp only [decide_eq_true_eq] at hkey ⊢
    exact fun hon => hkey (loadSupersededL0Keys_withSkip_subset hon)
  rintro ⟨hpos, hlt⟩
  exact hcap ⟨hpos, by
    show c.maxL0Files < _
    have hlt : c.maxL0Files < ((tailKeys (c.withSkip false) f s h txTimeNs).length : ℤ) := hlt
    omega⟩

theorem scanKeys_of_withinCap (hcap : WithinCap c f s h txTimeNs) :
    scanKeys c f s h txTimeNs =
      (sortStrings ((if (s.listObjects (tierPrefix .l1 h)).isEmpty ∧ (tailKeys c f s h txTimeNs).isEmpty then
        s.listObjects (tierPrefix .l0 h) else s.listObjects (tierPrefix .l1 h)) ++ tailKeys c f s h txTimeNs)).reverse := by
  rw [scanKeys, capTail, if_neg hcap]

/-- Where there is no L1 file, there is no manifest and the skip changes nothing. -/
theorem Timed.tailKeys_of_no_l1 (hs : Timed horizon s) (hl1 : s.listObjects (tierPrefix .l1 h) = []) :
    tailKeys c f s h txTimeNs = s.listObjects (tierPrefix .l0 h) := by
  refine List.filter_eq_self.mpr fun key _ => decide_eq_true fun hkey => ?_
  obtain ⟨-, mk, hmk, -, lines, hlines, hkey⟩ := mem_loadSupersededL0Keys.mp hkey
  obtain ⟨h', m, rfl, ⟨rows, hrows⟩, -⟩ := hs.manifest mk lines (lookup_of_listed hlines hkey)
  obtain ⟨-, rfl⟩ := tierPrefix_isPrefix_iff.mp (ObjectStore.mem_listObjects.mp hmk).2
  have hin : l1KeyFor h m ∈ s.listObjects (tierPrefix .l1 h) :=
    ObjectStore.mem_listObjects.mpr ⟨ObjectStore.mem_of_lookup hrows, List.prefix_append _ _⟩
  rw [hl1] at hin
  cases hin

/-- The cap leaves the tail alone, or what a manifest lists and is there is in a manifest that is not skipped. -/
def SkipSafe (c : ResolverConfig) (f : QueryFaults) (s : ObjectStore) (h : Hash8) (txTimeNs : Int64) : Prop :=
  WithinCap (c.withSkip true) f s h txTimeNs ∨ ∀ key ∈ s.listObjects (tierPrefix .l0 h),
    Superseded (c.withSkip false) f s h txTimeNs key → Superseded (c.withSkip true) f s h txTimeNs key

theorem tailKeys_withSkip_eq (hlisted : ∀ key ∈ s.listObjects (tierPrefix .l0 h),
    Superseded (c.withSkip false) f s h txTimeNs key → Superseded (c.withSkip true) f s h txTimeNs key) :
    tailKeys (c.withSkip true) f s h txTimeNs = tailKeys (c.withSkip false) f s h txTimeNs := by
  refine List.filter_congr fun key hkey => decide_eq_decide.mpr (not_congr ⟨?_, fun hoff => ?_⟩)
  · exact fun hon => loadSupersededL0Keys_withSkip_subset hon
  · exact mem_loadSupersededL0Keys.mpr (hlisted key hkey (mem_loadSupersededL0Keys.mp hoff))

/-- **The scans differ in files that are skipped.** -/
theorem Timed.filter_scanKeys (hs : Timed horizon s) (htx : horizon ≤ txTimeNs)
    (hsafe : SkipSafe c f s h txTimeNs) :
    (scanKeys (c.withSkip true) f s h txTimeNs).filter (fun key => !(c.withSkip true).skips txTimeNs key) =
      (scanKeys (c.withSkip false) f s h txTimeNs).filter fun key => !(c.withSkip true).skips txTimeNs key := by
  rcases hsafe with hcap | hlisted
  swap
  · rw [scanKeys, scanKeys, tailKeys_withSkip_eq hlisted]
    rfl
  rw [scanKeys_of_withinCap hcap, scanKeys_of_withinCap (withinCap_withSkip_false hcap)]
  by_cases hl1 : s.listObjects (tierPrefix .l1 h) = []
  · rw [hs.tailKeys_of_no_l1 hl1, hs.tailKeys_of_no_l1 hl1]
  · have hne : ∀ tail : List ObjectKey,
        ¬ ((s.listObjects (tierPrefix .l1 h)).isEmpty = true ∧ tail.isEmpty = true) := fun tail hempty =>
      hl1 (List.isEmpty_iff.mp hempty.1)
    rw [if_neg (hne _), if_neg (hne _), List.filter_reverse, List.filter_reverse, sortStrings, sortStrings,
      filter_sortBy, filter_sortBy, List.filter_append, List.filter_append, hs.filter_tailKeys htx]

/-- A file that is skipped has nothing to show. -/
theorem Timed.visibleRows_of_skips (hs : Timed horizon s) (hskip : (c.withSkip true).skips txTimeNs key = true)
    (enable : Bool) : visibleRows (c.withSkip enable) f s txTimeNs key = [] := by
  refine List.filter_eq_nil_iff.mpr fun row hrow => ?_
  cases hrows : fileRows (c.withSkip enable) f s txTimeNs key with
  | none =>
    rw [hrows] at hrow
    cases hrow
  | some rows =>
    rw [hrows] at hrow
    unfold fileRows at hrows
    split at hrows
    · cases hrows
    · obtain ⟨hin, -⟩ := mem_rowsAt_of_readRows hrows hrow
      obtain ⟨t, h', m, rfl, -, htimes, -⟩ := hs.file key _ (ObjectStore.lookup_of_mem_rowsAt hin)
      have hlt := Int64.lt_of_lt_of_le (skips_withSkip_objectKey.mp hskip).2 (htimes row hin).2
      simpa using Int64.not_le.mpr hlt

theorem filter_ne_nil_map {α β : Type} {g : α → List β} {p : α → Bool} {l : List α}
    (hg : ∀ a, p a = false → g a = []) : (l.map g).filter (· ≠ []) = ((l.filter p).map g).filter (· ≠ []) := by
  rw [List.filter_map, List.filter_map, List.filter_filter]
  congr 1
  refine List.filter_congr fun a _ => ?_
  cases hp : p a with
  | true => simp
  | false => simp [hg a hp]

/-- **The query sees the same** with the skip and without it. -/
theorem Timed.visibleFiles_withSkip (hs : Timed horizon s) (htx : horizon ≤ txTimeNs)
    (hsafe : SkipSafe c f s h txTimeNs) :
    visibleFiles (c.withSkip true) f s h txTimeNs = visibleFiles (c.withSkip false) f s h txTimeNs := by
  have hskipped : ∀ enable key, (!(c.withSkip true).skips txTimeNs key) = false →
      visibleRows (c.withSkip enable) f s txTimeNs key = [] := fun enable key hskip =>
    hs.visibleRows_of_skips (by simpa using hskip) enable
  unfold visibleFiles
  rw [filter_ne_nil_map (hskipped true), filter_ne_nil_map (hskipped false), hs.filter_scanKeys htx hsafe]
  congr 1
  refine List.map_congr_left fun key hkey => ?_
  have hskip : (c.withSkip true).skips txTimeNs key = false := by simpa using (List.mem_filter.mp hkey).2
  unfold visibleRows fileRows
  rw [hskip, skips_withSkip_false]

end

/-! ### Steps -/

section
variable {R : Runtime} {c : CompactionConfig} {f : CompactionFaults} {s : ObjectStore} {h : Hash8} {p : L0Partition}
  {horizon : Int64} {entityID : EntityID}

theorem timed_empty : Timed horizon ∅ := ⟨nofun, nofun⟩

theorem Timed.insert_file (hs : Timed horizon s) {t : Tier} {m : Int64} {rows : List Row} (ht : t ≠ .compaction)
    (htimes : ∀ row ∈ rows, 0 ≤ row.systemTime ∧ m ≤ row.systemTime)
    (hfirst : t = .l0 → ∃ row ∈ rows, row.systemTime = m) :
    Timed horizon (s.insert (objectKey t h m) (.arrow rows)) := by
  constructor
  · intro key rows' hkey
    by_cases heq : key = objectKey t h m
    · rw [heq, AList.lookup_insert] at hkey
      cases hkey
      exact ⟨t, h, m, heq, ht, htimes, hfirst⟩
    · rw [AList.lookup_insert_ne heq] at hkey
      exact hs.file key rows' hkey
  · intro mk lines hmk
    by_cases heq : mk = objectKey t h m
    · rw [heq, AList.lookup_insert] at hmk
      cases hmk
    · rw [AList.lookup_insert_ne heq] at hmk
      obtain ⟨h', m', hmk, ⟨rows', hl1⟩, hlisted⟩ := hs.manifest mk lines hmk
      refine ⟨h', m', hmk, ?_, hlisted⟩
      by_cases heq' : l1KeyFor h' m' = objectKey t h m
      · exact ⟨rows, by rw [heq', AList.lookup_insert]⟩
      · exact ⟨rows', by rw [AList.lookup_insert_ne heq', hl1]⟩

theorem Timed.insert_manifest (hs : Timed horizon s) {m : Int64} {lines : List ObjectKey}
    (hl1 : ∃ rows, s.lookup (l1KeyFor h m) = some (.arrow rows))
    (hlisted : ∀ key ∈ (parseManifest lines).2, ∃ m', key = l0KeyFor h m' ∧ (m ≤ m' ∨ m ≤ horizon)) :
    Timed horizon (s.insert (manifestKeyFor h m) (.manifest lines)) := by
  constructor
  · intro key rows hkey
    by_cases heq : key = manifestKeyFor h m
    · rw [heq, AList.lookup_insert] at hkey
      cases hkey
    · rw [AList.lookup_insert_ne heq] at hkey
      exact hs.file key rows hkey
  · have hkept : ∀ {h' : Hash8} {m' : Int64}, (∃ rows, s.lookup (l1KeyFor h' m') = some (.arrow rows)) →
        ∃ rows, (s.insert (manifestKeyFor h m) (.manifest lines)).lookup (l1KeyFor h' m') = some (.arrow rows) := by
      rintro h' m' ⟨rows, hrows⟩
      refine ⟨rows, ?_⟩
      rw [AList.lookup_insert_ne fun heq => ?_, hrows]
      cases (objectKey_injective heq).1
    intro mk lines' hmk
    by_cases heq : mk = manifestKeyFor h m
    · rw [heq, AList.lookup_insert] at hmk
      cases hmk
      exact ⟨h, m, heq, hkept hl1, hlisted⟩
    · rw [AList.lookup_insert_ne heq] at hmk
      obtain ⟨h', m', hmk, hl1', hlisted'⟩ := hs.manifest mk lines' hmk
      exact ⟨h', m', hmk, hkept hl1', hlisted'⟩

theorem Timed.insert_partition (hs : Timed horizon s) (hp : p.Sound) (hpos : ∀ row ∈ p.rows, 0 ≤ row.systemTime) :
    Timed horizon (s.insert p.key (.arrow p.rows)) := by
  refine hs.insert_file (by decide) (fun row hrow => ⟨hpos row hrow, ?_⟩) fun _ => ?_
  · exact le_of_toUInt64_le (hpos row hrow) (hp.first_le hrow)
  · rw [hp.first]
    obtain ⟨first, rest, hrows⟩ := List.exists_cons_of_ne_nil hp.ne_nil
    rw [hrows]
    exact ⟨first, List.mem_cons_self, rfl⟩

theorem Timed.flushPartitions (hs : Timed horizon s) {fallbackDir : Bool} {upload : L0Partition → UploadOutcome}
    {fallback : L0Partition → Bool} {ps : List L0Partition}
    (hps : ∀ p ∈ ps, p.Sound ∧ ∀ row ∈ p.rows, 0 ≤ row.systemTime) :
    Timed horizon (MemTable.flushPartitions fallbackDir upload fallback s ps).1 := by
  induction ps generalizing s with
  | nil => exact hs
  | cons p ps ih =>
    obtain ⟨⟨hp, hpos⟩, hps⟩ := List.forall_mem_cons.mp hps
    have hins := hs.insert_partition hp hpos
    have hupload : Timed horizon (s.upload p.key (.arrow p.rows) (upload p)).1 := by
      cases upload p with
      | ok => exact hins
      | failed => exact hs
      | written => exact hins
    rw [MemTable.flushPartitions]
    split_ifs
    · exact ih hupload hps
    · exact hupload
    · exact ih hupload hps
    · exact hupload

theorem Timed.uploadRetry (hs : Timed horizon s) (hp : p.Sound) (hpos : ∀ row ∈ p.rows, 0 ≤ row.systemTime)
    (attempts : List UploadOutcome) : Timed horizon (MemTable.uploadRetry p s attempts) := by
  rcases uploadRetry_cases p s attempts with ⟨heq, -⟩ | heq
  · rw [heq]
    exact hs
  · rw [heq]
    exact hs.insert_partition hp hpos

theorem Timed.l0File (hs : Timed horizon s) {key : ObjectKey} (hkey : key ∈ s.listObjects (tierPrefix .l0 h)) :
    ∃ m, key = l0KeyFor h m ∧ ∃ row ∈ s.rowsAt key, row.systemTime = m := by
  obtain ⟨obj, hobj⟩ := ObjectStore.lookup_of_mem_listObjects hkey
  have hpre := (ObjectStore.mem_listObjects.mp hkey).2
  cases obj with
  | arrow rows =>
    obtain ⟨t, h', m, rfl, -, -, hfirst⟩ := hs.file key rows hobj
    obtain ⟨rfl, rfl⟩ := tierPrefix_isPrefix_iff.mp hpre
    exact ⟨m, rfl, by rw [ObjectStore.rowsAt_of_lookup hobj]; exact hfirst rfl⟩
  | manifest lines =>
    obtain ⟨h', m, rfl, -⟩ := hs.manifest key lines hobj
    cases (tierPrefix_isPrefix_iff.mp hpre).1

/-- The rows of a compaction are in order and of one hash, and none is negative. -/
theorem Timed.merged (hs : Timed horizon s) {merged : List Row}
    (hmerged : readEntityRows R f s entityID (compactionKeys s h) = .ok merged) :
    WeaklyAscending compare Row.frag (sortBy compare Row.frag merged) ∧
      ∀ row ∈ sortBy compare Row.frag merged, row.entityIDHash = entityHash16 R entityID ∧ 0 ≤ row.systemTime := by
  refine ⟨weaklyAscending_sortBy merged, fun row hrow => ?_⟩
  obtain ⟨hbelongs, key, -, -, hin⟩ := (mem_readEntityRows hmerged).mp ((sortBy_perm merged).mem_iff.mp hrow)
  obtain ⟨t, h', m, -, -, htimes, -⟩ := hs.file key _ (ObjectStore.lookup_of_mem_rowsAt hin)
  exact ⟨of_decide_eq_true (Bool.and_eq_true_iff.mp hbelongs).1, (htimes row hin).1⟩

/-- The first of the rows that a compaction keeps is not after the others. -/
theorem Timed.first_le (hs : Timed horizon s) {rows : List Row} {first : Row}
    (hm : Merges R c f s entityID h first rows) :
    ∀ row ∈ rows, 0 ≤ row.systemTime ∧ first.systemTime ≤ row.systemTime := by
  obtain ⟨⟨merged, hmerged, hrows⟩, hhead⟩ := hm
  obtain ⟨hsorted, hall⟩ := hs.merged hmerged
  obtain ⟨hsub, -⟩ := c.prune_spec hsorted fun row hrow => (hall row hrow).1
  rw [hrows] at hsub
  intro row hrow
  refine ⟨(hall row (hsub.subset hrow)).2, le_of_toUInt64_le (hall row (hsub.subset hrow)).2 ?_⟩
  cases rows with
  | nil => cases hrow
  | cons row₀ rest =>
    cases hhead
    exact firstSysTime_le (hsorted.sublist hsub) (fun r hr => (hall r (hsub.subset hr)).1) hrow

/-- **A compaction** that reads all rows under its prefix, with a horizon that is not after the bound. -/
theorem Timed.compaction (hs : Timed horizon s) (hall : AllMerged R f s entityID h)
    (hhorizon : c.enableDominancePruning = true → c.pruningHorizonInt64Ns ≤ horizon) :
    Timed horizon (Database.compaction R c f s entityID h).1 := by
  rcases compaction_store_cases (R := R) (c := c) (f := f) (s := s) (h := h) with
    heq | ⟨first, rows, hm, heq⟩ | ⟨first, rows, hw⟩
  · rw [heq]
    exact hs
  · rw [heq]
    exact hs.insert_file (by decide) (hs.first_le hm) nofun
  · obtain ⟨merged, hmerged, hrows⟩ := hw.merged
    have hfirst := hs.first_le hw.merges
    have hl1 : Timed horizon (s.insert (l1KeyFor h first.systemTime) (.arrow rows)) :=
      hs.insert_file (by decide) hfirst nofun
    rw [hw.store]
    refine hl1.insert_manifest ⟨rows, AList.lookup_insert _⟩ fun key hkey => ?_
    rw [parseManifest_compaction] at hkey
    have hkey := mem_compactionKeys.mp hkey
    obtain ⟨m, rfl, row, hrow, rfl⟩ := hs.l0File hkey
    refine ⟨_, rfl, ?_⟩
    -- the row whose time is in the key is merged; it is kept, or one at or below the horizon is
    obtain ⟨hbelongs, key', hkey', hread, hrow'⟩ := hall _ hkey row hrow
    have hin : row ∈ sortBy compare Row.frag merged := (sortBy_perm merged).mem_iff.mpr
      ((mem_readEntityRows hmerged).mpr ⟨hbelongs, key', mem_compactionKeys.mpr hkey', hread, hrow'⟩)
    obtain ⟨hsorted, hmem⟩ := hs.merged hmerged
    rcases (c.prune_spec hsorted fun row hrow => (hmem row hrow).1).2 row hin with hkept | ⟨henable, row', hkept, hle⟩
    · exact .inl (hfirst row (hrows ▸ hkept)).2
    · exact .inr (Int64.le_trans (hfirst row' (hrows ▸ hkept)).2 (Int64.le_trans hle (hhorizon henable)))

theorem Timed.reap (hs : Timed horizon s) (rf : ReapFaults) : Timed horizon (Database.reap rf s).1 := by
  refine ⟨fun key rows hkey => hs.file key rows (lookup_of_lookup_reap hkey), fun mk lines hmk => ?_⟩
  obtain ⟨h', m, hkey, ⟨rows, hl1⟩, hlisted⟩ := hs.manifest mk lines (lookup_of_lookup_reap hmk)
  refine ⟨h', m, hkey, ⟨rows, lookup_reap_of_not_l0 hl1 fun hl0 => ?_⟩, hlisted⟩
  obtain ⟨rest, hrest⟩ := hl0
  simp [l1KeyFor, objectKey, tierPrefix, Tier.dir] at hrest

end

/-! ### Runs -/

/-- The condition on a step, in the state before it: the system times of writes are not negative, and a compaction
reads all rows under its prefix, which are all of its entity, and does not prune above `horizon`. -/
def TierStep.Timely (R : Runtime) (horizon : Int64) (t : QueryTier) : TierStep → Prop
  | .write ev => 0 ≤ ev.systemTime
  | .compaction c f entityID => (c.enableDominancePruning = true → c.pruningHorizonInt64Ns ≤ horizon) ∧
      AllMerged R f t.store entityID (entityHash8 R entityID)
  | .compactionByHash8 c _ _ f h => (c.enableDominancePruning = true → c.pruningHorizonInt64Ns ≤ horizon) ∧
      ∀ key ∈ t.store.listObjects (tierPrefix .l0 h), ∀ row ∈ t.store.rowsAt key, AllMerged R f t.store row.entityID h
  | _ => True

instance (R : Runtime) (horizon : Int64) (t : QueryTier) : ∀ step : TierStep, Decidable (step.Timely R horizon t)
  | .write _ => inferInstanceAs (Decidable (_ ≤ _))
  | .flush _ _ => inferInstanceAs (Decidable True)
  | .background _ _ => inferInstanceAs (Decidable True)
  | .compaction _ _ _ => inferInstanceAs (Decidable ((_ → _) ∧ _))
  | .compactionByHash8 _ _ _ _ _ => inferInstanceAs (Decidable ((_ → _) ∧ _))
  | .reap _ => inferInstanceAs (Decidable True)

section
variable {R : Runtime} {xxhash : Bytes → UInt64} {horizon : Int64} {t t' : QueryTier}

structure QueryTier.Timed (horizon : Int64) (t : QueryTier) : Prop where
  table : t.table.WF
  buffered : ∀ row ∈ t.table.buffered, 0 ≤ row.systemTime
  store : Database.Timed horizon t.store

/-- **Every such step keeps the times in the keys.** -/
theorem QueryTier.Timed.step (hs : t.Timed horizon) {i : TierStep} {out : List TierEvent}
    (hi : i.Timely R horizon t) (hstep : t.step R xxhash i = some (t', out)) : t'.Timed horizon := by
  obtain ⟨hwf, hbuffered⟩ := QueryTier.step_table hs.table hstep
  refine ⟨hwf, fun row hrow => ?_, ?_⟩
  · rcases hbuffered row hrow with hrow | ⟨ev, rfl, rfl⟩
    · exact hs.buffered row hrow
    · exact hi
  · cases i with
    | write ev =>
      cases hstep
      exact hs.store
    | flush upload fallback =>
      cases hstep
      dsimp only
      rw [store_flush]
      refine hs.store.flushPartitions fun p hp => ⟨sound_partitions _ p hp, fun row hrow => hs.buffered row ?_⟩
      exact mem_buffered_iff.mpr (.inr (mem_rows_iff_partitions.mpr ⟨p, hp, hrow⟩))
    | background i attempts =>
      cases hstep
      dsimp only
      by_cases hpart : ∃ p ps, t.table.frozen[i]? = some (p :: ps)
      · obtain ⟨p, ps, hpart⟩ := hpart
        have hmem : p :: ps ∈ t.table.frozen := List.mem_of_getElem? hpart
        rw [(frozen_background hpart).1]
        refine hs.store.uploadRetry (hs.table.sound _ hmem p List.mem_cons_self) (fun row hrow => ?_) _
        exact hs.buffered row (mem_buffered_iff.mpr (.inl ⟨_, hmem, p, List.mem_cons_self, hrow⟩))
      · rw [(background_of_done hpart).1]
        exact hs.store
    | compaction c f entityID =>
      cases hstep
      exact hs.store.compaction hi.2 hi.1
    | compactionByHash8 c listFails readFirst f h =>
      cases hstep
      dsimp only
      rcases compactionByHash8_cases (R := R) (c := c) (f := f) (s := t.store)
        (h := h) with heq | ⟨key, hkey, row, hrow, heq⟩
      · rw [heq]
        exact hs.store
      · rw [heq]
        exact hs.store.compaction (hi.2 key hkey row hrow) hi.1
    | reap f =>
      cases hstep
      exact hs.store.reap f

theorem timed_new (arenaSize maxEntries : UInt32) (fallbackDir : Bool) :
    (QueryTier.new arenaSize maxEntries fallbackDir).Timed horizon :=
  ⟨wf_new _ _ _, by simp [QueryTier.new, MemTable.buffered, MemTable.new, Arena.new, Arena.rows], timed_empty⟩

/-- **In every such run, the answers at or above the horizon do not depend on the skip**, if the cap leaves the tail
alone or no file enters it by the skip of a manifest. -/
theorem skip_is_transparent {arenaSize maxEntries : UInt32} {fallbackDir : Bool} {steps : List TierStep}
    {log : List TierEvent}
    (hsteps : Meets (QueryTier.step R xxhash) (fun t i => i.Timely R horizon t) (.new arenaSize maxEntries fallbackDir)
      steps)
    (hrun : run (QueryTier.step R xxhash) (.new arenaSize maxEntries fallbackDir) steps = some (t, log))
    (r : Resolver) (f : QueryFaults) :
    (∀ q : AsOfQuery, horizon ≤ q.txTimeNs →
      SkipSafe r.config f t.store (entityHash8 r.runtime q.entityID) q.txTimeNs →
        (r.withSkip true).asOf f t.store q = (r.withSkip false).asOf f t.store q) ∧
    ∀ q : RangeQuery, horizon ≤ q.txTimeNs →
      SkipSafe r.config f t.store (entityHash8 r.runtime q.entityID) q.txTimeNs →
        (r.withSkip true).range f t.store q = (r.withSkip false).range f t.store q := by
  have htimed := run_state_invariant (Q := QueryTier.Timed horizon)
    (fun t i t' out hP hG hstep => hP.step hG hstep) (timed_new arenaSize maxEntries fallbackDir) hsteps hrun
  exact ⟨fun q htx hsafe => asOf_withSkip_eq (htimed.store.visibleFiles_withSkip htx hsafe),
    fun q htx hsafe => range_withSkip_eq (htimed.store.visibleFiles_withSkip htx hsafe)⟩

/-- Two flushes, a compaction that prunes the first row, and a flush of a later one. -/
def prunedLife : List TierStep :=
  [.write (sampleEvent 1 0 10), .flush (fun _ => .ok) (fun _ => true), .write (sampleEvent 5 0 10),
    .flush (fun _ => .ok) (fun _ => true), .compaction ⟨true, 5⟩ .none [0x61], .write (sampleEvent 9 0 10),
    .flush (fun _ => .ok) (fun _ => true)]

set_option maxRecDepth 100000 in
/-- With the skip the last file is not downloaded, and the answer is the same. -/
theorem skip_is_transparent_in_pruned_life :
    ∃ t log, run (QueryTier.step .sample fun _ => 0) (.new 4096 100 true) prunedLife = some (t, log) ∧
      (sampleResolver.withSkip true).asOf .none t.store ⟨[0x61], 3, 6⟩ =
        (sampleResolver.withSkip false).asOf .none t.store ⟨[0x61], 3, 6⟩ := by
  have hcap : ((run (QueryTier.step .sample fun _ => 0) (.new 4096 100 true) prunedLife).any fun result =>
      decide (WithinCap (sampleResolver.config.withSkip true) .none result.1.store
        (entityHash8 sampleResolver.runtime [0x61]) 6)) = true := by
    decide +kernel
  obtain ⟨⟨t, log⟩, hrun, hcap⟩ := (Option.any_eq_true _ _).mp hcap
  have hsteps : Meets (QueryTier.step .sample fun _ => 0) (fun t i => i.Timely .sample 5 t) (.new 4096 100 true)
      prunedLife := by decide +kernel
  exact ⟨t, log, hrun, (skip_is_transparent hsteps hrun sampleResolver .none).1 ⟨[0x61], 3, 6⟩ (by decide)
    (.inl (of_decide_eq_true hcap))⟩

/-- A compaction, and a flush of an earlier row behind it. -/
def lateLife : List TierStep :=
  [.write (sampleEvent 20 0 10), .flush (fun _ => .ok) (fun _ => true),
    .compaction defaultCompactionConfig .none [0x61], .write (sampleEvent 10 0 10),
    .flush (fun _ => .ok) (fun _ => true)]

/-- A resolver that looks at one L0 file. -/
def oneFileResolver : Resolver := ⟨.sample, ⟨1, 4096, true⟩, none⟩

set_option maxRecDepth 100000 in
/-- With the skip, the manifest is not read, the file it lists takes the one place in the tail and is then skipped
itself; without the skip, the row of the other file is found. -/
theorem skipped_file_takes_the_place :
    ∃ t log, run (QueryTier.step .sample fun _ => 0) (.new 4096 100 true) lateLife = some (t, log) ∧
      (oneFileResolver.withSkip true).asOf .none t.store ⟨[0x61], 3, 15⟩ = .error .entityNotFound ∧
      (oneFileResolver.withSkip false).asOf .none t.store ⟨[0x61], 3, 15⟩ =
        .ok (sampleRow 10 0 10).toTriTemporalEvent := by
  have hdiffer : ((run (QueryTier.step .sample fun _ => 0) (.new 4096 100 true) lateLife).any fun result =>
      decide ((oneFileResolver.withSkip true).asOf .none result.1.store ⟨[0x61], 3, 15⟩ = .error .entityNotFound) &&
        decide ((oneFileResolver.withSkip false).asOf .none result.1.store ⟨[0x61], 3, 15⟩ =
          .ok (sampleRow 10 0 10).toTriTemporalEvent)) = true := by
    decide +kernel
  obtain ⟨⟨t, log⟩, hrun, hdiffer⟩ := (Option.any_eq_true _ _).mp hdiffer
  obtain ⟨hon, hoff⟩ := Bool.and_eq_true_iff.mp hdiffer
  exact ⟨t, log, hrun, of_decide_eq_true hon, of_decide_eq_true hoff⟩

end

end Sovereign.Database

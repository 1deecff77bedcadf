import Sovereign.Database.MemTable
import Sovereign.Lib.Latest

/-!
# The temporal resolver

`internal/database/query.go`: `AsOf` and `Range` over the files of an entity and the live entries of the
engine.

* `scanKeys` — the files a query looks at: all of L1, and of L0 the files that no manifest lists, the
  newest `MaxL0Files` of them;
* `asOf` — the row with the latest system time among those that pass the filters.  A file that cannot be
  read is passed over;
* `range` — all rows whose valid time meets a window, up to `MaxRangeRows`.

A file has one record batch.  Which lists and reads fail is given by `QueryFaults`; a manifest that is
cut off while it is read, cancellation, telemetry and the statistics of the observed transaction times
are left out.
-/

namespace Sovereign.Database

open Lib Sync

/-! ### Configuration -/

/-- `ResolverConfig`, without the live source. -/
structure ResolverConfig where
  maxL0Files : ℤ
  maxRangeRows : ℤ
  enableFirstSysSkip : Bool
deriving DecidableEq

def defaultResolverConfig : ResolverConfig := ⟨1000, 4096, true⟩

/-- What `NewResolver` makes of a configuration. -/
def ResolverConfig.coerced (c : ResolverConfig) : ResolverConfig :=
  { c with
    maxL0Files := if c.maxL0Files ≤ 0 then 1000 else c.maxL0Files
    maxRangeRows := if c.maxRangeRows < 0 then 0 else c.maxRangeRows }

/-- `Resolver`: its configuration, the live source and the hash of entities. -/
structure Resolver where
  runtime : Runtime
  config : ResolverConfig
  /-- `LiveSource`; an error of a live read is passed over like an empty answer. -/
  liveSource : Option (EntityID → Int64 → List TriTemporalEvent)

/-- The errors of a query. -/
inductive QueryError where
  | emptyEntityID
  | listL1
  | listL0
  | entityNotFound
deriving DecidableEq

/-- The lists and reads that fail. -/
structure QueryFaults where
  listL1 : Bool
  listL0 : Bool
  listManifests : Bool
  manifest : ObjectKey → Bool
  file : ObjectKey → ReadFault

def QueryFaults.none : QueryFaults := ⟨false, false, false, fun _ => false, fun _ => .none⟩

/-! ### The files of a query -/

/-- The test by the time in a key that all rows of the file come after `txTimeNs`. -/
def ResolverConfig.skips (c : ResolverConfig) (txTimeNs : Int64) (key : ObjectKey) : Bool :=
  c.enableFirstSysSkip &&
    match parseFirstSysFromKey key with
    | some firstSys => txTimeNs < firstSys
    | none => false

def loadSupersededL0Keys (c : ResolverConfig) (f : QueryFaults) (s : ObjectStore) (h : Hash8) (txTimeNs : Int64) :
    List ObjectKey :=
  if f.listManifests then []
  else
    (s.listObjects (tierPrefix .compaction h)).flatMap fun mk =>
      if c.skips txTimeNs mk then []
      else
        match s.readLines mk (f.manifest mk) with
        | none => []
        | some lines => (parseManifest lines).2

/-- The L0 files that no manifest lists. -/
def tailKeys (c : ResolverConfig) (f : QueryFaults) (s : ObjectStore) (h : Hash8) (txTimeNs : Int64) :
    List ObjectKey :=
  (s.listObjects (tierPrefix .l0 h)).filter fun k => k ∉ loadSupersededL0Keys c f s h txTimeNs

/-- The newest `MaxL0Files` of them. -/
def capTail (c : ResolverConfig) (tail : List ObjectKey) : List ObjectKey :=
  if 0 < c.maxL0Files ∧ c.maxL0Files < tail.length then
    (sortStrings tail).drop (tail.length - c.maxL0Files.toNat)
  else tail

/-- The files a query scans, in the order of the scan. -/
def scanKeys (c : ResolverConfig) (f : QueryFaults) (s : ObjectStore) (h : Hash8) (txTimeNs : Int64) :
    List ObjectKey :=
  let l1Keys := s.listObjects (tierPrefix .l1 h)
  let tail := capTail c (tailKeys c f s h txTimeNs)
  let merged := if l1Keys.isEmpty ∧ tail.isEmpty then s.listObjects (tierPrefix .l0 h) else l1Keys
  (sortStrings (merged ++ tail)).reverse

/-- The rows a query reads from a file; `none` where the file is passed over. -/
def fileRows (c : ResolverConfig) (f : QueryFaults) (s : ObjectStore) (txTimeNs : Int64) (key : ObjectKey) :
    Option (List Row) :=
  if c.skips txTimeNs key then none else s.readRows key (f.file key)

section
variable {c : ResolverConfig} {f : QueryFaults} {s : ObjectStore} {h : Hash8} {txTimeNs : Int64} {key : ObjectKey}

/-- The cap leaves the tail of a query alone. -/
def WithinCap (c : ResolverConfig) (f : QueryFaults) (s : ObjectStore) (h : Hash8) (txTimeNs : Int64) : Prop :=
  ¬ (0 < c.maxL0Files ∧ c.maxL0Files < (tailKeys c f s h txTimeNs).length)

instance : Decidable (WithinCap c f s h txTimeNs) := inferInstanceAs (Decidable (¬ _))

/-- A manifest that is read, with a key that names no later time, lists the file. -/
def Superseded (c : ResolverConfig) (f : QueryFaults) (s : ObjectStore) (h : Hash8) (txTimeNs : Int64)
    (key : ObjectKey) : Prop :=
  f.listManifests = false ∧ ∃ mk ∈ s.listObjects (tierPrefix .compaction h), c.skips txTimeNs mk = false ∧
    ∃ lines, s.readLines mk (f.manifest mk) = some lines ∧ key ∈ (parseManifest lines).2

theorem mem_loadSupersededL0Keys :
    key ∈ loadSupersededL0Keys c f s h txTimeNs ↔ Superseded c f s h txTimeNs key := by
  unfold loadSupersededL0Keys Superseded
  split
  · next hlist => simp [hlist]
  · next hlist =>
    simp only [List.mem_flatMap, Bool.eq_false_of_not_eq_true hlist, true_and]
    refine exists_congr fun mk => and_congr_right fun _ => ?_
    cases c.skips txTimeNs mk <;> cases s.readLines mk (f.manifest mk) <;> simp

theorem mem_tailKeys :
    key ∈ tailKeys c f s h txTimeNs ↔
      key ∈ s.listObjects (tierPrefix .l0 h) ∧ key ∉ loadSupersededL0Keys c f s h txTimeNs := by
  rw [tailKeys, List.mem_filter, decide_eq_true_iff]

theorem mem_of_mem_capTail {tail : List ObjectKey} (hkey : key ∈ capTail c tail) : key ∈ tail := by
  unfold capTail at hkey
  split at hkey
  · exact (sortBy_perm _).mem_iff.mp (List.mem_of_mem_drop hkey)
  · exact hkey

theorem mem_scanKeys_iff :
    key ∈ scanKeys c f s h txTimeNs ↔
      key ∈ (if (s.listObjects (tierPrefix .l1 h)).isEmpty ∧
          (capTail c (tailKeys c f s h txTimeNs)).isEmpty then s.listObjects (tierPrefix .l0 h)
        else s.listObjects (tierPrefix .l1 h)) ∨ key ∈ capTail c (tailKeys c f s h txTimeNs) := by
  rw [scanKeys, List.mem_reverse, sortStrings, (sortBy_perm _).mem_iff, List.mem_append]

theorem mem_list_of_mem_scanKeys (hkey : key ∈ scanKeys c f s h txTimeNs) :
    key ∈ s.listObjects (tierPrefix .l1 h) ∨ key ∈ s.listObjects (tierPrefix .l0 h) := by
  rcases mem_scanKeys_iff.mp hkey with hkey | hkey
  · split at hkey
    · exact .inr hkey
    · exact .inl hkey
  · exact .inr (mem_tailKeys.mp (mem_of_mem_capTail hkey)).1

theorem mem_scanKeys_of_l1 (hkey : key ∈ s.listObjects (tierPrefix .l1 h)) : key ∈ scanKeys c f s h txTimeNs := by
  have hne : ¬ ((s.listObjects (tierPrefix .l1 h)).isEmpty = true ∧
      (capTail c (tailKeys c f s h txTimeNs)).isEmpty = true) := by
    rintro ⟨hempty, -⟩
    rw [List.isEmpty_iff.mp hempty] at hkey
    cases hkey
  rw [mem_scanKeys_iff, if_neg hne]
  exact .inl hkey

theorem mem_scanKeys_of_tail (hcap : WithinCap c f s h txTimeNs) (hkey : key ∈ tailKeys c f s h txTimeNs) :
    key ∈ scanKeys c f s h txTimeNs := by
  rw [mem_scanKeys_iff, capTail, if_neg hcap]
  exact .inr hkey

end

/-! ### `AsOf` -/

structure AsOfQuery where
  entityID : EntityID
  validTimeNs : Int64
  txTimeNs : Int64

section
variable (R : Runtime)

def AsOfQuery.admitsTimes (q : AsOfQuery) (ev : TriTemporalEvent) : Bool :=
  !(q.txTimeNs < ev.systemTime) && !(q.validTimeNs < ev.validTimeStart || ev.validTimeEnd ≤ q.validTimeNs)

/-- The filters of `scanRecordBatch`. -/
def AsOfQuery.admits (q : AsOfQuery) (r : Row) : Bool :=
  r.entityIDHash = entityHash16 R q.entityID && q.admitsTimes r.toTriTemporalEvent && r.entityID = q.entityID

/-- `scanRecordBatch`: the first row with the latest time, if that is after `currentBest`. -/
def scanRecordBatch (q : AsOfQuery) (currentBest : Int64) (rows : List Row) : Option TriTemporalEvent :=
  (rows.filter fun r => q.admits R r && !(r.systemTime ≤ currentBest)).foldl
    (fun best r => later TriTemporalEvent.systemTime best r.toTriTemporalEvent) none

def scanFile (q : AsOfQuery) (rows : List Row) : Option TriTemporalEvent :=
  laterOf TriTemporalEvent.systemTime none (scanRecordBatch R q 0 rows)

end

def scanStep (r : Resolver) (f : QueryFaults) (s : ObjectStore) (q : AsOfQuery) (dominant : Option TriTemporalEvent)
    (key : ObjectKey) : Option TriTemporalEvent :=
  match fileRows r.config f s q.txTimeNs key with
  | none => dominant
  | some rows => laterOf TriTemporalEvent.systemTime dominant (scanFile r.runtime q rows)

def Resolver.liveRead (r : Resolver) (entityID : EntityID) (txTimeNs : Int64) : List TriTemporalEvent :=
  match r.liveSource with
  | none => []
  | some read => (read entityID txTimeNs).map fun ev => { ev with entityID := entityID }

def liveStep (q : AsOfQuery) (dominant : Option TriTemporalEvent) (ev : TriTemporalEvent) : Option TriTemporalEvent :=
  if q.admitsTimes ev then later TriTemporalEvent.systemTime dominant ev else dominant

/-- The result of the two loops of `AsOf`. -/
def Resolver.dominant (r : Resolver) (f : QueryFaults) (s : ObjectStore) (q : AsOfQuery) : Option TriTemporalEvent :=
  (r.liveRead q.entityID q.txTimeNs).foldl (liveStep q)
    ((scanKeys r.config f s (entityHash8 r.runtime q.entityID) q.txTimeNs).foldl (scanStep r f s q) none)

def Resolver.asOf (r : Resolver) (f : QueryFaults) (s : ObjectStore) (q : AsOfQuery) :
    Except QueryError TriTemporalEvent :=
  let h := entityHash8 r.runtime q.entityID
  if q.entityID.isEmpty then .error .emptyEntityID
  else if f.listL1 then .error .listL1
  else if f.listL0 then .error .listL0
  else if (s.listObjects (tierPrefix .l1 h)).isEmpty && (s.listObjects (tierPrefix .l0 h)).isEmpty &&
      r.liveSource.isNone then .error .entityNotFound
  else
    match r.dominant f s q with
    | none => .error .entityNotFound
    | some ev => .ok ev

/-! ### What `AsOf` finds -/

/-- The rows of the scanned files that pass the filters. -/
def Resolver.durable (r : Resolver) (f : QueryFaults) (s : ObjectStore) (q : AsOfQuery) : Set TriTemporalEvent :=
  {ev | ∃ key ∈ scanKeys r.config f s (entityHash8 r.runtime q.entityID) q.txTimeNs,
    ∃ rows, fileRows r.config f s q.txTimeNs key = some rows ∧
      ∃ row ∈ rows, q.admits r.runtime row = true ∧ row.toTriTemporalEvent = ev}

def Resolver.live (r : Resolver) (q : AsOfQuery) : Set TriTemporalEvent :=
  {ev | ev ∈ r.liveRead q.entityID q.txTimeNs ∧ q.admitsTimes ev = true}

section
variable {R : Runtime} {r : Resolver} {f : QueryFaults} {s : ObjectStore} {q : AsOfQuery} {ev : TriTemporalEvent}

theorem isLatest_scanRecordBatch (rows : List Row) :
    IsLatest TriTemporalEvent.systemTime
      {ev | ∃ row ∈ rows, q.admits R row = true ∧ row.toTriTemporalEvent = ev} (scanRecordBatch R q 0 rows) := by
  have hscan := isLatest_foldl (fun best r => later TriTemporalEvent.systemTime best r.toTriTemporalEvent)
    (fun row : Row => {row.toTriTemporalEvent}) (fun C best row h => h.later row.toTriTemporalEvent)
    (rows.filter fun row => q.admits R row && !(row.systemTime ≤ 0)) IsLatest.empty
  refine ⟨fun ev hev => ?_, fun ev hev => ?_⟩
  · obtain ⟨hmem, hpos⟩ := hscan.mem ev hev
    rw [Set.empty_union] at hmem
    obtain ⟨row, hrow, rfl⟩ := hmem
    obtain ⟨hrow, hadm⟩ := List.mem_filter.mp hrow
    exact ⟨⟨row, hrow, (Bool.and_eq_true_iff.mp hadm).1, rfl⟩, hpos⟩
  · obtain ⟨row, hrow, hadm, rfl⟩ := hev
    by_cases hpos : row.systemTime ≤ 0
    · exact Int64.le_trans hpos hscan.slotTime_nonneg
    · refine hscan.le _ (.inr ⟨row, List.mem_filter.mpr ⟨hrow, ?_⟩, rfl⟩)
      simp [hadm, hpos]

theorem isLatest_scanFile (rows : List Row) :
    IsLatest TriTemporalEvent.systemTime
      {ev | ∃ row ∈ rows, q.admits R row = true ∧ row.toTriTemporalEvent = ev} (scanFile R q rows) := by
  have hmerge := IsLatest.empty.merge (isLatest_scanRecordBatch (R := R) (q := q) rows)
  rwa [Set.empty_union] at hmerge

theorem isLatest_durable :
    IsLatest TriTemporalEvent.systemTime (r.durable f s q)
      ((scanKeys r.config f s (entityHash8 r.runtime q.entityID) q.txTimeNs).foldl (scanStep r f s q) none) := by
  have hfiles := isLatest_foldl (scanStep r f s q)
    (fun key => {ev | ∃ rows, fileRows r.config f s q.txTimeNs key = some rows ∧
      ∃ row ∈ rows, q.admits r.runtime row = true ∧ row.toTriTemporalEvent = ev})
    (fun C best key h => by
      unfold scanStep
      cases hrows : fileRows r.config f s q.txTimeNs key with
      | none => simpa using h
      | some rows =>
        have := h.merge (isLatest_scanFile (R := r.runtime) (q := q) rows)
        simpa using this)
    (scanKeys r.config f s (entityHash8 r.runtime q.entityID) q.txTimeNs) IsLatest.empty
  rwa [Set.empty_union] at hfiles

/-- **`AsOf` finds the latest admissible row** of the files it scans and of the live entries. -/
theorem isLatest_dominant :
    IsLatest TriTemporalEvent.systemTime (r.durable f s q ∪ r.live q) (r.dominant f s q) := by
  have hlive := isLatest_foldl (liveStep q) (fun ev => {ev' | ev' = ev ∧ q.admitsTimes ev' = true})
    (fun C best ev h => h.later_if q.admitsTimes ev) (r.liveRead q.entityID q.txTimeNs)
    (isLatest_durable (r := r) (f := f) (s := s) (q := q))
  have hset : r.live q =
      {ev | ∃ ev' ∈ r.liveRead q.entityID q.txTimeNs, ev = ev' ∧ q.admitsTimes ev = true} := by
    ext ev
    simp [Resolver.live]
  rw [hset]
  exact hlive

/-- A query with candidates is not turned away before the scan. -/
theorem asOf_eq_dominant (hid : q.entityID ≠ []) (hl1 : f.listL1 = false) (hl0 : f.listL0 = false)
    (hev : ev ∈ r.durable f s q ∪ r.live q) : r.asOf f s q = match r.dominant f s q with
      | none => .error .entityNotFound
      | some ev => .ok ev := by
  have hany : ((s.listObjects (tierPrefix .l1 (entityHash8 r.runtime q.entityID))).isEmpty &&
      (s.listObjects (tierPrefix .l0 (entityHash8 r.runtime q.entityID))).isEmpty && r.liveSource.isNone) = false := by
    rcases hev with ⟨key, hkey, -⟩ | ⟨hlive, -⟩
    · rcases mem_list_of_mem_scanKeys hkey with hkey | hkey
      · simp [List.ne_nil_of_mem hkey]
      · simp [List.ne_nil_of_mem hkey]
    · unfold Resolver.liveRead at hlive
      cases hsource : r.liveSource with
      | none => simp [hsource] at hlive
      | some read => simp
  have hempty : q.entityID.isEmpty = false := by simpa using hid
  simp only [Resolver.asOf, hempty, hl1, hl0, hany, Bool.false_eq_true, if_false]

/-- **A candidate after time zero is found, or a later one.** -/
theorem asOf_of_candidate (hid : q.entityID ≠ []) (hl1 : f.listL1 = false) (hl0 : f.listL0 = false)
    (hev : ev ∈ r.durable f s q ∪ r.live q) (hpos : 0 < ev.systemTime) :
    ∃ found, r.asOf f s q = .ok found ∧ found ∈ r.durable f s q ∪ r.live q ∧
      ev.systemTime ≤ found.systemTime := by
  obtain ⟨found, hfound, hmem, hle⟩ := isLatest_dominant.exists_ge hev hpos
  refine ⟨found, ?_, hmem, hle⟩
  rw [asOf_eq_dominant hid hl1 hl0 hev, Option.mem_def.mp hfound]

end

section
variable {r : Resolver} {f : QueryFaults} {s : ObjectStore} {q : AsOfQuery}

theorem mem_of_asOf_eq_ok {ev : TriTemporalEvent} (h : r.asOf f s q = .ok ev) :
    ev ∈ r.durable f s q ∪ r.live q ∧ 0 < ev.systemTime := by
  have hdom : r.dominant f s q = some ev := by
    unfold Resolver.asOf at h
    dsimp only at h
    cases hdom : r.dominant f s q with
    | none =>
      rw [hdom] at h
      split_ifs at h
    | some found =>
      rw [hdom] at h
      split_ifs at h
      cases h
      rfl
  exact isLatest_dominant.mem ev hdom

end

/-! ### `Range` -/

structure RangeQuery where
  entityID : EntityID
  validLoNs : Int64
  validHiNs : Int64
  txTimeNs : Int64

def RangeQuery.admitsTimes (q : RangeQuery) (ev : TriTemporalEvent) : Bool :=
  !(q.txTimeNs < ev.systemTime) && !(q.validHiNs ≤ ev.validTimeStart || ev.validTimeEnd ≤ q.validLoNs)

/-- The filters of `scanWindowRecordBatch`. -/
def RangeQuery.admits (R : Runtime) (q : RangeQuery) (r : Row) : Bool :=
  r.entityIDHash = entityHash16 R q.entityID && q.admitsTimes r.toTriTemporalEvent && r.entityID = q.entityID

def ResolverConfig.atCap (c : ResolverConfig) (collected : List TriTemporalEvent) : Bool :=
  0 < c.maxRangeRows && c.maxRangeRows ≤ collected.length

/-- `scanWindowRecordBatch`: collect rows, and whether to stop. -/
def scanWindowRecordBatch (R : Runtime) (c : ResolverConfig) (q : RangeQuery) (collected : List TriTemporalEvent) :
    List Row → List TriTemporalEvent × Bool
  | [] => (collected, false)
  | r :: rows =>
    if !q.admits R r then scanWindowRecordBatch R c q collected rows
    else if c.atCap collected then (collected, true)
    else scanWindowRecordBatch R c q (collected ++ [r.toTriTemporalEvent]) rows

def scanWindowFiles (r : Resolver) (f : QueryFaults) (s : ObjectStore) (q : RangeQuery)
    (collected : List TriTemporalEvent) : List ObjectKey → List TriTemporalEvent × Bool
  | [] => (collected, false)
  | key :: keys =>
    match fileRows r.config f s q.txTimeNs key with
    | none => scanWindowFiles r f s q collected keys
    | some rows =>
      let scanned := scanWindowRecordBatch r.runtime r.config q collected rows
      if scanned.2 then (scanned.1, true) else scanWindowFiles r f s q scanned.1 keys

def liveRowKey (ev : TriTemporalEvent) : Int64 × Digest := (ev.systemTime, ev.payloadDigest)

def scanWindowLive (c : ResolverConfig) (q : RangeQuery) (seen : List (Int64 × Digest))
    (collected : List TriTemporalEvent) : List TriTemporalEvent → List TriTemporalEvent × Bool
  | [] => (collected, false)
  | ev :: evs =>
    if !q.admitsTimes ev || liveRowKey ev ∈ seen then scanWindowLive c q seen collected evs
    else if c.atCap collected then (collected, true)
    else scanWindowLive c q (liveRowKey ev :: seen) (collected ++ [ev]) evs

/-- The live entries that the loop adds without a cap. -/
def unseenLive (q : RangeQuery) : List (Int64 × Digest) → List TriTemporalEvent → List TriTemporalEvent
  | _, [] => []
  | seen, ev :: evs =>
    if !q.admitsTimes ev || liveRowKey ev ∈ seen then unseenLive q seen evs
    else ev :: unseenLive q (liveRowKey ev :: seen) evs

/-- The rows of the two loops, and whether one of them was stopped. -/
def Resolver.window (r : Resolver) (f : QueryFaults) (s : ObjectStore) (q : RangeQuery) :
    List TriTemporalEvent × Bool :=
  let files := scanWindowFiles r f s q [] (scanKeys r.config f s (entityHash8 r.runtime q.entityID) q.txTimeNs)
  let live := scanWindowLive r.config q (files.1.map liveRowKey) files.1 (r.liveRead q.entityID q.txTimeNs)
  (live.1, files.2 || live.2)

/-- `Range`: the rows by the start of their valid time, and whether the answer is truncated. -/
def Resolver.range (r : Resolver) (f : QueryFaults) (s : ObjectStore) (q : RangeQuery) :
    Except QueryError (List TriTemporalEvent × Bool) :=
  let h := entityHash8 r.runtime q.entityID
  let window := r.window f s q
  if q.entityID.isEmpty then .error .emptyEntityID
  else if q.validHiNs ≤ q.validLoNs then .error .entityNotFound
  else if f.listL1 then .error .listL1
  else if f.listL0 then .error .listL0
  else if (s.listObjects (tierPrefix .l1 h)).isEmpty && (s.listObjects (tierPrefix .l0 h)).isEmpty &&
      r.liveSource.isNone then .error .entityNotFound
  else if window.1.isEmpty then .error .entityNotFound
  else .ok (sortBy compare TriTemporalEvent.validTimeStart window.1, window.2)

section
variable {R : Runtime} {r : Resolver} {c : ResolverConfig} {f : QueryFaults} {s : ObjectStore} {q : RangeQuery}
  {keys : List ObjectKey} {seen : List (Int64 × Digest)} {evs : List TriTemporalEvent}

variable {collected : List TriTemporalEvent} {rows : List Row}

theorem scanWindowRecordBatch_eq (h : (scanWindowRecordBatch R c q collected rows).2 = false) :
    (scanWindowRecordBatch R c q collected rows).1 =
      collected ++ (rows.filter (q.admits R)).map Row.toTriTemporalEvent := by
  induction rows generalizing collected with
  | nil => simp [scanWindowRecordBatch]
  | cons row rows ih =>
    rw [scanWindowRecordBatch] at h ⊢
    by_cases hadm : q.admits R row = true
    · rw [if_neg (by simp [hadm])] at h ⊢
      by_cases hcap : c.atCap collected = true
      · rw [if_pos hcap] at h
        cases h
      · rw [if_neg hcap] at h ⊢
        rw [ih h, List.filter_cons_of_pos hadm, List.map_cons, List.append_assoc]
        rfl
    · rw [if_pos (by simpa using hadm)] at h ⊢
      rw [ih h, List.filter_cons_of_neg hadm]

theorem scanWindowFiles_eq (h : (scanWindowFiles r f s q collected keys).2 = false) :
    (scanWindowFiles r f s q collected keys).1 =
      collected ++ keys.flatMap fun key =>
        (((fileRows r.config f s q.txTimeNs key).getD []).filter (q.admits r.runtime)).map
          Row.toTriTemporalEvent := by
  induction keys generalizing collected with
  | nil => simp [scanWindowFiles]
  | cons key keys ih =>
    rw [scanWindowFiles] at h ⊢
    cases hrows : fileRows r.config f s q.txTimeNs key with
    | none =>
      rw [hrows] at h
      rw [ih h]
      simp [hrows]
    | some rows =>
      rw [hrows] at h
      dsimp only at h ⊢
      by_cases hstop : (scanWindowRecordBatch r.runtime r.config q collected rows).2 = true
      · rw [if_pos hstop] at h
        cases h
      · rw [if_neg hstop] at h ⊢
        rw [ih h, scanWindowRecordBatch_eq (by simpa using hstop)]
        simp [hrows]

theorem subset_scanWindowLive : collected ⊆ (scanWindowLive c q seen collected evs).1 := by
  induction evs generalizing seen collected with
  | nil => exact List.Subset.refl _
  | cons ev evs ih =>
    rw [scanWindowLive]
    split
    · exact ih
    · split
      · exact List.Subset.refl _
      · exact fun x hx => ih (List.mem_append_left _ hx)

theorem ne_nil_of_atCap (h : c.atCap collected = true) : collected ≠ [] := by
  rintro rfl
  simp only [ResolverConfig.atCap, Bool.and_eq_true, decide_eq_true_eq, List.length_nil] at h
  omega

theorem atCap_scanWindowRecordBatch (h : (scanWindowRecordBatch R c q collected rows).2 = true) :
    c.atCap (scanWindowRecordBatch R c q collected rows).1 = true := by
  induction rows generalizing collected with
  | nil => cases h
  | cons row rows ih =>
    rw [scanWindowRecordBatch] at h ⊢
    split at h
    · next hadm =>
      rw [if_pos hadm]
      exact ih h
    · next hadm =>
      rw [if_neg hadm]
      split at h
      · next hcap =>
        rw [if_pos hcap]
        exact hcap
      · next hcap =>
        rw [if_neg hcap]
        exact ih h

theorem atCap_scanWindowFiles (h : (scanWindowFiles r f s q collected keys).2 = true) :
    r.config.atCap (scanWindowFiles r f s q collected keys).1 = true := by
  induction keys generalizing collected with
  | nil => cases h
  | cons key keys ih =>
    rw [scanWindowFiles] at h ⊢
    cases hrows : fileRows r.config f s q.txTimeNs key with
    | none =>
      rw [hrows] at h
      exact ih h
    | some rows =>
      rw [hrows] at h
      dsimp only at h ⊢
      split at h
      · next hstop =>
        rw [if_pos hstop]
        exact atCap_scanWindowRecordBatch hstop
      · next hstop =>
        rw [if_neg hstop]
        exact ih h

theorem atCap_scanWindowLive (h : (scanWindowLive c q seen collected evs).2 = true) :
    c.atCap (scanWindowLive c q seen collected evs).1 = true := by
  induction evs generalizing seen collected with
  | nil => cases h
  | cons ev evs ih =>
    rw [scanWindowLive] at h ⊢
    split at h
    · next hskip =>
      rw [if_pos hskip]
      exact ih h
    · next hskip =>
      rw [if_neg hskip]
      split at h
      · next hcap =>
        rw [if_pos hcap]
        exact hcap
      · next hcap =>
        rw [if_neg hcap]
        exact ih h

theorem window_ne_nil_of_truncated (h : (r.window f s q).2 = true) : (r.window f s q).1 ≠ [] := by
  rcases Bool.or_eq_true_iff.mp h with h | h
  · obtain ⟨ev, hev⟩ := List.exists_mem_of_ne_nil _ (ne_nil_of_atCap (atCap_scanWindowFiles h))
    exact List.ne_nil_of_mem (subset_scanWindowLive hev)
  · exact ne_nil_of_atCap (atCap_scanWindowLive h)

/-- **A window query over a scanned row answers**, and with the row unless the answer is truncated. -/
theorem range_of_row (hid : q.entityID ≠ []) (hwindow : q.validLoNs < q.validHiNs) (hl1 : f.listL1 = false)
    (hl0 : f.listL0 = false) {key : ObjectKey}
    (hkey : key ∈ scanKeys r.config f s (entityHash8 r.runtime q.entityID) q.txTimeNs)
    (hrows : fileRows r.config f s q.txTimeNs key = some rows) {row : Row} (hrow : row ∈ rows)
    (hadm : q.admits r.runtime row = true) :
    ∃ evs truncated, r.range f s q = .ok (evs, truncated) ∧
      (truncated = false → row.toTriTemporalEvent ∈ evs) := by
  have hmem : (r.window f s q).2 = false → row.toTriTemporalEvent ∈ (r.window f s q).1 := by
    intro hfull
    obtain ⟨hfiles, -⟩ := Bool.or_eq_false_iff.mp hfull
    refine subset_scanWindowLive ?_
    rw [scanWindowFiles_eq hfiles, List.nil_append, List.mem_flatMap]
    refine ⟨key, hkey, List.mem_map_of_mem ?_⟩
    rw [hrows]
    exact List.mem_filter.mpr ⟨hrow, hadm⟩
  have hne : (r.window f s q).1 ≠ [] := by
    cases htrunc : (r.window f s q).2 with
    | false => exact List.ne_nil_of_mem (hmem htrunc)
    | true => exact window_ne_nil_of_truncated htrunc
  have hany : ((s.listObjects (tierPrefix .l1 (entityHash8 r.runtime q.entityID))).isEmpty &&
      (s.listObjects (tierPrefix .l0 (entityHash8 r.runtime q.entityID))).isEmpty && r.liveSource.isNone) = false := by
    rcases mem_list_of_mem_scanKeys hkey with hkey | hkey <;> simp [List.ne_nil_of_mem hkey]
  have hempty : q.entityID.isEmpty = false := by simpa using hid
  refine ⟨sortBy compare TriTemporalEvent.validTimeStart (r.window f s q).1, (r.window f s q).2, ?_,
    fun htrunc => (sortBy_perm _).mem_iff.mpr (hmem htrunc)⟩
  simp only [Resolver.range, hempty, hl1, hl0, hany, Int64.not_le.mpr hwindow, Bool.false_eq_true, if_false,
    List.isEmpty_iff, hne]

end

end Sovereign.Database

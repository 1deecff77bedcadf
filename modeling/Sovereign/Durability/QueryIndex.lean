import Sovereign.Durability.Bridge
import Sovereign.Database.Lifecycle

/-!
# The query tier behind a checkpoint

`pkg/durability/bridge.go`, behind the image: with the snapshot index enabled, `AppendCheckpoint` writes the latest
entry of every entity that has changed since it was last flushed into a fresh MemTable and flushes it; if that returns
nil, the dots of these entries become the new watermark (`lastFlushedDot`).

`planQueryTierDelta`, `stageAndFlushQueryTierDelta` and `commitQueryTierDelta` are the three parts, with the uploads of
background flushes anywhere between the writes.  What is staged without error is a run of the query tier
(`run_beforeFlush`).

`Flush` returns nil where an upload has failed and a fallback file was written, and it does not wait for the
background flushes; without these, nil means that the rows are found (`flush_nil_means_queryable`).
-/

namespace Sovereign.Durability

open Lib Sync Wal Database

/-! ### The delta -/

/-- `queryTierEvent`: an entry has no payload, only its digest. -/
def queryTierEvent (entityID : EntityID) (entry : CRDTEntry) : TriTemporalEvent where
  entityID := entityID
  systemTime := entry.systemTime
  validTimeStart := entry.validTimeStart
  validTimeEnd := entry.validTimeEnd
  assertionTime := entry.assertionTime
  h3Index := entry.h3Index
  payload := []
  payloadDigest := entry.payloadDigest

abbrev LatestEntries := AList fun _ : EntityID => CRDTEntry

/-- One captured entry: it replaces an entry of its entity with a smaller dot. -/
def noteLatest (latest : LatestEntries) (r : SnapshotRecord) : LatestEntries :=
  match latest.lookup r.entityID with
  | none => latest.insert r.entityID r.entry
  | some cur => if compareDots cur.dot r.entry.dot = .lt then latest.insert r.entityID r.entry else latest

def latestEntries (records : List SnapshotRecord) : LatestEntries := records.foldl noteLatest ∅

structure CkptDeltaRow where
  heapKey : EntityID
  entry : CRDTEntry
deriving DecidableEq

/-- `lastFlushedDot`. -/
abbrev Watermark := AList fun _ : EntityID => CausalDot

/-- `planQueryTierDelta`, up to the order in which the map is walked. -/
def planQueryTierDelta (debugFullQueryFlush : Bool) (lastFlushedDot : Watermark) (latest : LatestEntries) :
    List CkptDeltaRow :=
  latest.entries.filterMap fun e =>
    if !debugFullQueryFlush && lastFlushedDot.lookup e.1 = some e.2.dot then none else some ⟨e.1, e.2⟩

def commitQueryTierDelta (lastFlushedDot : Watermark) (delta : List CkptDeltaRow) : Watermark :=
  delta.foldl (fun w r => w.insert r.heapKey r.entry.dot) lastFlushedDot

/-! ### Staging and flushing -/

/-- One upload of a background flush: which of them, and how its attempts end. -/
abbrev BackgroundUpload := ℕ × List UploadOutcome

inductive DeltaError where
  | write (err : WriteError)
  | flush (err : FlushError)
deriving DecidableEq

/-- How a delta is staged and flushed: its rows in the order of the map, the background uploads before each write,
before the flush and while `Close` waits, and how the uploads of the flush and of `Close` end. -/
structure DeltaSchedule where
  rows : List (CkptDeltaRow × List BackgroundUpload)
  before : List BackgroundUpload
  upload : L0Partition → UploadOutcome
  fallback : L0Partition → Bool
  closeUpload : L0Partition → UploadOutcome
  closeFallback : L0Partition → Bool
  closing : List BackgroundUpload

def DeltaSchedule.delta (sched : DeltaSchedule) : List CkptDeltaRow := sched.rows.map Prod.fst

section
variable (R : Runtime) (xxhash : Bytes → UInt64)

def CkptDeltaRow.row (r : CkptDeltaRow) : Row := MemTable.eventRow R xxhash (queryTierEvent r.heapKey r.entry)

def uploadInBackground (t : QueryTier) (uploads : List BackgroundUpload) : QueryTier :=
  uploads.foldl (fun t u => let next := t.table.background t.store u.1 u.2; ⟨next.1, next.2⟩) t

/-- The loop over the delta: the first error ends it. -/
def stageDelta : QueryTier → List (CkptDeltaRow × List BackgroundUpload) → QueryTier × Option WriteError
  | t, [] => (t, none)
  | t, (r, uploads) :: rows =>
    let t := uploadInBackground t uploads
    let written := t.table.write R xxhash (queryTierEvent r.heapKey r.entry)
    match written.2 with
    | some err => (⟨written.1, t.store⟩, some err)
    | none => stageDelta ⟨written.1, t.store⟩ rows

def stageAndFlushQueryTierDelta (t : QueryTier) (sched : DeltaSchedule) : QueryTier × Option DeltaError :=
  let staged := stageDelta R xxhash t sched.rows
  match staged.2 with
  | some err => (staged.1, some (.write err))
  | none =>
    let t := uploadInBackground staged.1 sched.before
    let flushed := t.table.flush t.store sched.upload sched.fallback
    (⟨flushed.1, flushed.2.1⟩, flushed.2.2.map .flush)

/-- `MemTable.Close`: a last flush; if it succeeds, the background flushes are waited for. -/
def closeTable (t : QueryTier) (sched : DeltaSchedule) : QueryTier :=
  let flushed := t.table.flush t.store sched.closeUpload sched.closeFallback
  uploadInBackground ⟨{ flushed.1 with closed := true }, flushed.2.1⟩ sched.closing

/-- `NewSnapshotMemTable`, over a store. -/
def newSnapshotMemTable (fallbackDir : Bool) (s : ObjectStore) : QueryTier := ⟨.new 4194304 1048576 fallbackDir, s⟩

end

/-! ### The steps of a schedule -/

def BackgroundUpload.step (u : BackgroundUpload) : TierStep := .background u.1 u.2

def stageSteps (rows : List (CkptDeltaRow × List BackgroundUpload)) : List TierStep :=
  rows.flatMap fun r => r.2.map BackgroundUpload.step ++ [.write (queryTierEvent r.1.heapKey r.1.entry)]

def DeltaSchedule.steps (sched : DeltaSchedule) : List TierStep :=
  stageSteps sched.rows ++ sched.before.map BackgroundUpload.step

def writtenRows (log : List TierEvent) : List Row :=
  log.filterMap fun
    | .written row => some row
    | .flushed _ => none

/-- The table and the store when the flush begins. -/
def beforeFlush (R : Runtime) (xxhash : Bytes → UInt64) (t : QueryTier) (sched : DeltaSchedule) : QueryTier :=
  uploadInBackground (stageDelta R xxhash t sched.rows).1 sched.before

section
variable {R : Runtime} {xxhash : Bytes → UInt64} {t t' : QueryTier} {s : ObjectStore} {sched : DeltaSchedule}
  {upload : L0Partition → UploadOutcome} {fallback : L0Partition → Bool}

theorem mem_writtenRows {log : List TierEvent} {row : Row} : row ∈ writtenRows log ↔ .written row ∈ log := by
  rw [writtenRows, List.mem_filterMap]
  constructor
  · rintro ⟨ev, hev, heq⟩
    cases ev with
    | written row' =>
      cases heq
      exact hev
    | flushed row' => cases heq
  · exact fun hrow => ⟨_, hrow, rfl⟩

theorem writtenRows_flushed (rows : List Row) : writtenRows (rows.map .flushed) = [] :=
  List.filterMap_eq_nil_iff.mpr fun ev hev => by
    obtain ⟨row, -, rfl⟩ := List.mem_map.mp hev
    rfl

theorem writtenRows_append (log log' : List TierEvent) : writtenRows (log ++ log') = writtenRows log ++ writtenRows log' :=
  List.filterMap_append

theorem run_uploadInBackground (t : QueryTier) (uploads : List BackgroundUpload) :
    ∃ log, run (QueryTier.step R xxhash) t (uploads.map BackgroundUpload.step) =
      some (uploadInBackground t uploads, log) ∧ writtenRows log = [] := by
  induction uploads generalizing t with
  | nil => exact ⟨[], rfl, rfl⟩
  | cons u uploads ih =>
    obtain ⟨log, hrun, hnone⟩ := ih ⟨(t.table.background t.store u.1 u.2).1, (t.table.background t.store u.1 u.2).2⟩
    refine ⟨_, run_cons rfl hrun, ?_⟩
    rw [writtenRows_append, writtenRows_flushed, hnone]
    rfl

/-- **A delta that is staged without error is a run** that writes its rows. -/
theorem run_stageDelta {rows : List (CkptDeltaRow × List BackgroundUpload)}
    (hok : (stageDelta R xxhash t rows).2 = none) :
    ∃ log, run (QueryTier.step R xxhash) t (stageSteps rows) = some ((stageDelta R xxhash t rows).1, log) ∧
      writtenRows log = rows.map fun r => r.1.row R xxhash := by
  induction rows generalizing t with
  | nil => exact ⟨[], rfl, rfl⟩
  | cons r rows ih =>
    obtain ⟨r, uploads⟩ := r
    obtain ⟨log, hback, hnone⟩ := run_uploadInBackground (R := R) t uploads
    rw [stageDelta] at hok ⊢
    set t₁ := uploadInBackground t uploads with ht₁
    cases hwritten : (t₁.table.write R xxhash (queryTierEvent r.heapKey r.entry)).2 with
    | some err =>
      rw [hwritten] at hok
      cases hok
    | none =>
      rw [hwritten] at hok
      obtain ⟨log', hrest, hrows⟩ := ih hok
      have hwrite : t₁.step R xxhash (.write (queryTierEvent r.heapKey r.entry)) =
          some (⟨(t₁.table.write R xxhash (queryTierEvent r.heapKey r.entry)).1, t₁.store⟩,
            [.written (r.row R xxhash)]) := by
        simp only [QueryTier.step, hwritten, Option.isNone_none, if_true]
        rfl
      refine ⟨log ++ ([.written (r.row R xxhash)] ++ log'), ?_, ?_⟩
      · rw [stageSteps, List.flatMap_cons, List.append_assoc]
        exact run_append hback (run_cons hwrite hrest)
      · rw [writtenRows_append, writtenRows_append, hnone, hrows]
        rfl

theorem run_beforeFlush (hok : (stageDelta R xxhash t sched.rows).2 = none) :
    ∃ log, run (QueryTier.step R xxhash) t sched.steps = some (beforeFlush R xxhash t sched, log) ∧
      writtenRows log = sched.delta.map fun r => r.row R xxhash := by
  obtain ⟨log, hstage, hrows⟩ := run_stageDelta hok
  obtain ⟨log', hback, hnone⟩ := run_uploadInBackground (R := R)
    (stageDelta R xxhash t sched.rows).1 sched.before
  refine ⟨log ++ log', run_append hstage hback, ?_⟩
  rw [writtenRows_append, hrows, hnone, List.append_nil, DeltaSchedule.delta, List.map_map]
  rfl

theorem stageAndFlush_of_staged (hok : (stageDelta R xxhash t sched.rows).2 = none) :
    stageAndFlushQueryTierDelta R xxhash t sched =
      let flushed := (beforeFlush R xxhash t sched).table.flush (beforeFlush R xxhash t sched).store sched.upload
        sched.fallback
      (⟨flushed.1, flushed.2.1⟩, flushed.2.2.map .flush) := by
  unfold stageAndFlushQueryTierDelta
  dsimp only
  rw [hok]
  rfl

theorem staged_of_nil (hnil : (stageAndFlushQueryTierDelta R xxhash t sched).2 = none) :
    (stageDelta R xxhash t sched.rows).2 = none := by
  unfold stageAndFlushQueryTierDelta at hnil
  dsimp only at hnil
  split at hnil
  · cases hnil
  · next hnone => exact hnone

/-! ### A flush that returns nil -/

/-- The condition on a flush, in the state before it: it is safe, no background flush has anything left to upload, and
no upload fails into the fallback directory. -/
def FlushReady (R : Runtime) (t : QueryTier) (upload : L0Partition → UploadOutcome) (fallback : L0Partition → Bool) :
    Prop :=
  (TierStep.flush upload fallback).Safe R t ∧ t.table.frozen.flatten = [] ∧
    (t.table.fallbackDir = false ∨ ∀ p ∈ partitions t.table.skipList, upload p = .ok)

instance : Decidable (FlushReady R t upload fallback) := inferInstanceAs (Decidable (_ ∧ _ ∧ _))

/-- Without a fallback directory, nil means that every upload has succeeded. -/
theorem upload_ok_of_nil {ps : List L0Partition}
    (hnil : (MemTable.flushPartitions false upload fallback s ps).2 = none) : ∀ p ∈ ps, upload p = .ok := by
  induction ps generalizing s with
  | nil => nofun
  | cons p ps ih =>
    rw [MemTable.flushPartitions] at hnil
    cases hup : upload p with
    | ok =>
      rw [hup] at hnil
      exact List.forall_mem_cons.mpr ⟨hup, ih hnil⟩
    | failed =>
      rw [hup] at hnil
      cases hnil
    | written =>
      rw [hup] at hnil
      cases hnil

/-- **A flush that returns nil in such a state leaves every row found** that was written in the run. -/
theorem found_of_flush (ht : t.Sound R) (hready : FlushReady R t upload fallback)
    (hnil : (t.table.flush t.store upload fallback).2.2 = none) {row : Row}
    (hrow : row ∈ t.table.buffered ∨ row ∈ storedRows R t.store row.entityID) (hpos : 0 < row.systemTime)
    (hid : row.entityID ≠ []) : Found R (t.table.flush t.store upload fallback).2.1 row := by
  obtain ⟨hsafe, hdone, hok⟩ := hready
  have huploads : (TierStep.flush upload fallback).Uploads t := by
    rcases hok with hdir | hok
    · rw [store_flush, hdir] at hnil
      exact upload_ok_of_nil hnil
    · exact hok
  have hstep : t.step R (fun _ => 0) (.flush upload fallback) = some (_, _) := rfl
  obtain ⟨hsound, hkeeps, -⟩ := ht.step hsafe hstep
  obtain ⟨hkept, -⟩ := ht.step_buffered hsafe huploads hstep
  refine found_of_stored (hsound.store.layout _) ?_ hid hpos
  rcases hrow with hrow | hrow
  · rcases hkept row hrow with hbuffered | hstored
    · -- nothing is on its way behind the flush
      dsimp only at hbuffered
      rw [buffered_flush, hdone] at hbuffered
      cases hbuffered
    · exact hstored
  · exact hkeeps.stored _ hrow

theorem found_of_run {t₀ : QueryTier} {steps : List TierStep} {log : List TierEvent} {row : Row} (ht : t₀.Sound R)
    (hsteps : Meets (QueryTier.step R xxhash) (fun t i => i.Safe R t ∧ i.Uploads t) t₀ steps)
    (hrun : run (QueryTier.step R xxhash) t₀ steps = some (t, log)) (hready : FlushReady R t upload fallback)
    (hnil : (t.table.flush t.store upload fallback).2.2 = none) (hrow : .written row ∈ log) :
    Found R (t.table.flush t.store upload fallback).2.1 row := by
  obtain ⟨hsound, hwritten⟩ := run_written ht hsteps hrun
  obtain ⟨hin, hpos, hid⟩ := hwritten row hrow
  exact found_of_flush hsound hready hnil hin hpos hid

theorem lookup_commitQueryTierDelta {w : Watermark} {delta : List CkptDeltaRow} {e : EntityID} {dot : CausalDot}
    (h : (commitQueryTierDelta w delta).lookup e = some dot) :
    w.lookup e = some dot ∨ ∃ r ∈ delta, r.heapKey = e ∧ r.entry.dot = dot := by
  induction delta generalizing w with
  | nil => exact .inl h
  | cons r delta ih =>
    rcases ih h with hw | ⟨r', hr', hkey⟩
    · by_cases heq : e = r.heapKey
      · subst heq
        rw [AList.lookup_insert] at hw
        cases hw
        exact .inr ⟨r, List.mem_cons_self, rfl, rfl⟩
      · rw [AList.lookup_insert_ne heq] at hw
        exact .inl hw
    · exact .inr ⟨r', List.mem_cons_of_mem _ hr', hkey⟩

/-- **Where `Flush` returns nil, the rows written before it are found**: in every run of safe steps whose uploads
succeed, over any sound store, and for the delta of a checkpoint, whose rows become the watermark. -/
theorem flush_nil_means_queryable (hs : StoreSound R s) :
    (∀ (arenaSize maxEntries : UInt32) (fallbackDir : Bool) (steps : List TierStep) (t : QueryTier)
      (log : List TierEvent) (upload : L0Partition → UploadOutcome) (fallback : L0Partition → Bool),
      Meets (QueryTier.step R xxhash) (fun t i => i.Safe R t ∧ i.Uploads t) ⟨.new arenaSize maxEntries fallbackDir, s⟩
        steps →
      run (QueryTier.step R xxhash) ⟨.new arenaSize maxEntries fallbackDir, s⟩ steps = some (t, log) →
      FlushReady R t upload fallback → (t.table.flush t.store upload fallback).2.2 = none →
        ∀ row, .written row ∈ log → Found R (t.table.flush t.store upload fallback).2.1 row) ∧
    ∀ (fallbackDir : Bool) (sched : DeltaSchedule),
      Meets (QueryTier.step R xxhash) (fun t i => i.Safe R t ∧ i.Uploads t) (newSnapshotMemTable fallbackDir s)
        sched.steps →
      FlushReady R (beforeFlush R xxhash (newSnapshotMemTable fallbackDir s) sched) sched.upload sched.fallback →
      (stageAndFlushQueryTierDelta R xxhash (newSnapshotMemTable fallbackDir s) sched).2 = none →
        ∀ (w : Watermark) (e : EntityID) (dot : CausalDot),
          (commitQueryTierDelta w sched.delta).lookup e = some dot → w.lookup e = some dot ∨
            ∃ r ∈ sched.delta, r.heapKey = e ∧ r.entry.dot = dot ∧
              Found R (stageAndFlushQueryTierDelta R xxhash (newSnapshotMemTable fallbackDir s) sched).1.store
                (r.row R xxhash) := by
  have hnew : ∀ (arenaSize maxEntries : UInt32) (fallbackDir : Bool),
      QueryTier.Sound R ⟨.new arenaSize maxEntries fallbackDir, s⟩ := fun arenaSize maxEntries fallbackDir =>
    ⟨MemTable.wf_new _ _ _, by simp [MemTable.buffered, MemTable.new, Arena.new, Arena.rows], hs⟩
  refine ⟨fun _ _ _ _ _ _ _ _ hsteps hrun hready hnil _ hrow =>
    found_of_run (hnew _ _ _) hsteps hrun hready hnil hrow, fun fallbackDir sched hsteps hready hnil w e dot hdot => ?_⟩
  rcases lookup_commitQueryTierDelta hdot with hold | ⟨r, hr, hkey, hentry⟩
  · exact .inl hold
  · -- the delta was staged, and then the flush returned nil
    have hstaged := staged_of_nil hnil
    obtain ⟨log, hrun, hrows⟩ := run_beforeFlush hstaged
    rw [stageAndFlush_of_staged hstaged] at hnil ⊢
    exact .inr ⟨r, hr, hkey, hentry, found_of_run (hnew _ _ _) hsteps hrun hready
      (Option.map_eq_none_iff.mp hnil) (mem_writtenRows.mp (hrows ▸ List.mem_map_of_mem hr))⟩

def sampleDeltaRow : CkptDeltaRow := ⟨[0x61], ⟨.zero 32, .zero 16, .zero 16, 1, 5, 0, 10, 0, 0, 0⟩⟩

/-- A delta of one row whose upload ends so. -/
def sampleSchedule (outcome : UploadOutcome) : DeltaSchedule :=
  ⟨[(sampleDeltaRow, [])], [], fun _ => outcome, fun _ => true, fun _ => .ok, fun _ => true, []⟩

set_option maxRecDepth 100000 in
/-- The row of the watermark is found. -/
theorem flush_nil_means_queryable_for_a_row :
    Found .sample (stageAndFlushQueryTierDelta .sample (fun _ => 0) (newSnapshotMemTable true ∅)
      (sampleSchedule .ok)).1.store (sampleDeltaRow.row .sample fun _ => 0) := by
  have hcommit := (@flush_nil_means_queryable .sample (fun _ => 0) _ storeSound_empty).2 true
    (sampleSchedule .ok) (by decide +kernel) (by decide +kernel) (by decide +kernel) ∅ [0x61] ⟨.zero 16, 1⟩
    (by decide +kernel)
  obtain hold | ⟨r, hr, -, -, hfound⟩ := hcommit
  · cases hold
  · rwa [List.mem_singleton.mp hr] at hfound

set_option maxRecDepth 100000 in
/-- The upload fails and a fallback file is written: nil is returned, so the dot becomes the watermark, and the row is
nowhere. -/
theorem fallback_is_not_queryable :
    (stageAndFlushQueryTierDelta .sample (fun _ => 0) (newSnapshotMemTable true ∅) (sampleSchedule .failed)).2 = none ∧
      (commitQueryTierDelta ∅ (sampleSchedule .failed).delta).lookup [0x61] = some ⟨.zero 16, 1⟩ ∧
      sampleResolver.asOf .none (stageAndFlushQueryTierDelta .sample (fun _ => 0) (newSnapshotMemTable true ∅)
        (sampleSchedule .failed)).1.store ⟨[0x61], 3, 5⟩ = .error .entityNotFound := by
  decide +kernel

end

end Sovereign.Durability

import Sovereign.Durability.Boot
import Sovereign.Durability.QueryIndex
import Sovereign.Lib.FirstGreatest

/-!
# Checkpoints on a store without faults

`AppendCheckpoint` as a whole: the record in the log, the image, and behind it the delta of the query tier.

The write path takes identifiers that the two encoders behind it refuse: an image wants at most 65535 bytes, and the
MemTable wants valid UTF-8.  One such entity ends the call for all of them, at every later checkpoint too.

`checkpoint_succeeds_iff`: on a store without faults, a checkpoint returns nil **iff** the captured identifiers fit the
image and, with the index enabled, those of the delta are valid; then the image decodes to the captured state, and if
no two rows of the delta share the bytes of their object key, all of them are in the query tier (`Staged`, an
invariant of every interleaving of the writes with the background uploads).
-/

namespace Sovereign.Durability

open Lib Sync Wal Database

/-! ### The call -/

/-- `Bridge` with the index enabled or not, and the part of the store that has the query tier. -/
structure IndexedBridge where
  bridge : Bridge
  store : ObjectStore
  snapshotIndexEnabled : Bool
  snapshotFallbackDir : Bool
  debugFullQueryFlush : Bool
  lastFlushedDot : Watermark

inductive IndexError where
  | checkpoint (err : Bridge.CheckpointError)
  | delta (err : DeltaError)

namespace IndexedBridge

variable (R : Runtime) (xxhash : Bytes → UInt64)

def captured (b : IndexedBridge) : List SnapshotRecord := recordsOf (b.bridge.engine.captureShardsPinned R).1

def delta (b : IndexedBridge) : List CkptDeltaRow :=
  planQueryTierDelta b.debugFullQueryFlush b.lastFlushedDot (latestEntries (b.captured R))

def flushed (b : IndexedBridge) (sched : DeltaSchedule) : QueryTier × Option DeltaError :=
  stageAndFlushQueryTierDelta R xxhash (newSnapshotMemTable b.snapshotFallbackDir b.store) sched

/-- `AppendCheckpoint`; the table is closed when the call returns. -/
def appendCheckpoint (b : IndexedBridge) (f : Faults) (sched : DeltaSchedule) :
    IndexedBridge × Except IndexError Unit :=
  match b.bridge.appendCheckpoint R f with
  | (bridge, .error err) => ({ b with bridge := bridge }, .error (.checkpoint err))
  | (bridge, .ok ()) =>
    if b.bridge.snapshotter.isNone || !b.snapshotIndexEnabled then ({ b with bridge := bridge }, .ok ())
    else
      let flushed := b.flushed R xxhash sched
      let closed := closeTable flushed.1 sched
      match flushed.2 with
      | some err => ({ b with bridge := bridge, store := closed.store }, .error (.delta err))
      | none =>
        ({ b with
            bridge := bridge
            store := closed.store
            lastFlushedDot := commitQueryTierDelta b.lastFlushedDot sched.delta }, .ok ())

end IndexedBridge

/-- A schedule without faults: the delta in some order, uploads that succeed at once, and `Close` waits for those in
the background. -/
structure DeltaSchedule.FaultFree (R : Runtime) (xxhash : Bytes → UInt64) (b : IndexedBridge) (sched : DeltaSchedule) :
    Prop where
  delta : sched.delta.Perm (b.delta R)
  upload : ∀ p, sched.upload p = .ok
  closeUpload : ∀ p, sched.closeUpload p = .ok
  background : ∀ u ∈ sched.rows.flatMap Prod.snd ++ (sched.before ++ sched.closing), u.2.head? = some .ok
  waited : (closeTable (b.flushed R xxhash sched).1 sched).table.frozen.flatten = []

/-- The row is in an L0 file of its entity. -/
def InQueryTier (R : Runtime) (s : ObjectStore) (row : Row) : Prop :=
  ∃ key ∈ s.listObjects (tierPrefix .l0 (entityHash8 R row.entityID)), row ∈ s.rowsAt key

/-! ### Rows on their way to the store -/

/-- What of a row goes into the key of its file. -/
def keyOf (row : Row) : Hash8 × Int64 := (keyHash row.entityIDHash, row.systemTime)

/-- Each of the rows is in a file under the key of one of them. -/
def Uploaded (s : ObjectStore) (rows : List Row) : Prop :=
  ∀ row ∈ rows, ∃ first ∈ rows, keyHash first.entityIDHash = keyHash row.entityIDHash ∧
    row ∈ s.rowsAt (l0KeyFor (keyHash first.entityIDHash) first.systemTime)

/-- The written rows are in the table or uploaded. -/
structure Staged (t : QueryTier) (written : List Row) : Prop where
  table : t.table.WF
  split : ∃ uploaded, (t.table.buffered ++ uploaded).Perm written ∧ Uploaded t.store uploaded

section
variable {R : Runtime} {xxhash : Bytes → UInt64} {t t' : QueryTier} {s : ObjectStore} {p : L0Partition}
  {rows rest written : List Row}
  {ps : List L0Partition} {ev : TriTemporalEvent} {upload : L0Partition → UploadOutcome}

/-- **The upload of a partition** overwrites no file of this table. -/
theorem Uploaded.insert (h : Uploaded s rows) (hp : p.Sound)
    (hkeys : ((p.rows ++ rows).map keyOf).Nodup) : Uploaded (s.insert p.key (.arrow p.rows)) (p.rows ++ rows) := by
  obtain ⟨first, hfirst⟩ : ∃ first, p.rows.head? = some first :=
    Option.isSome_iff_exists.mp (by rw [List.isSome_head?]; exact hp.ne_nil)
  have hmem : first ∈ p.rows := List.mem_of_mem_head? hfirst
  have htime : p.firstSysTimeNs = first.systemTime := by
    rw [hp.first]
    cases hrows : p.rows with
    | nil =>
      rw [hrows] at hmem
      cases hmem
    | cons first' rest =>
      rw [hrows] at hfirst
      cases hfirst
      rfl
  have hkey : p.key = l0KeyFor (keyHash first.entityIDHash) first.systemTime := by
    rw [L0Partition.key, htime, hp.hash first hmem]
  intro row hrow
  rcases List.mem_append.mp hrow with hrow | hrow
  · refine ⟨first, List.mem_append_left _ hmem, by rw [hp.hash first hmem, hp.hash row hrow], ?_⟩
    rw [← hkey, ObjectStore.rowsAt_insert_self]
    exact hrow
  · obtain ⟨first', hfirst', hhash, hin⟩ := h row hrow
    refine ⟨first', List.mem_append_right _ hfirst', hhash, ?_⟩
    rw [ObjectStore.rowsAt_insert_of_ne fun heq => ?_]
    · exact hin
    · -- two rows with the same bytes in their keys
      rw [hkey] at heq
      obtain ⟨-, hhash', htime'⟩ := objectKey_injective heq
      rw [List.map_append, List.nodup_append] at hkeys
      exact hkeys.2.2 (keyOf first) (List.mem_map_of_mem hmem) (keyOf first') (List.mem_map_of_mem hfirst')
        (by rw [keyOf, keyOf, hhash', htime'])

theorem flatten_set_perm {α : Type} {l : List (List α)} {i : ℕ} {a : α} {as : List α} (hi : l[i]? = some (a :: as)) :
    l.flatten.Perm (a :: (l.set i as).flatten) := by
  induction l generalizing i with
  | nil => cases hi
  | cons x l ih =>
    cases i with
    | zero =>
      cases hi
      exact List.Perm.refl _
    | succ i =>
      rw [List.set_cons_succ, List.flatten_cons, List.flatten_cons]
      exact ((ih hi).append_left x).trans List.perm_middle

theorem buffered_background {m : MemTable} {i : ℕ} (hi : m.frozen[i]? = some (p :: ps)) :
    m.buffered.Perm (p.rows ++ { m with frozen := m.frozen.set i ps }.buffered) := by
  have hperm := (flatten_set_perm hi).flatMap_right L0Partition.rows
  rw [List.flatMap_cons] at hperm
  rw [MemTable.buffered, MemTable.buffered, ← List.append_assoc]
  exact hperm.append_right _

theorem Staged.perm {written' : List Row} (h : Staged t written) (hperm : written.Perm written') : Staged t written' := by
  obtain ⟨uploaded, hsplit, hin⟩ := h.split
  exact ⟨h.table, uploaded, hsplit.trans hperm, hin⟩

theorem Staged.write (h : Staged t written) (hacc : t.table.Accepts R xxhash ev) :
    Staged ⟨(t.table.write R xxhash ev).1, t.store⟩ (MemTable.eventRow R xxhash ev :: written) := by
  obtain ⟨uploaded, hsplit, hin⟩ := h.split
  obtain ⟨-, hwf, hperm⟩ := hacc.write h.table
  exact ⟨hwf, uploaded, (hperm.append_right uploaded).trans (hsplit.cons _), hin⟩

theorem Staged.background (h : Staged t written) (hkeys : (written.map keyOf).Nodup) {u : BackgroundUpload}
    (hok : u.2.head? = some .ok) :
    Staged ⟨(t.table.background t.store u.1 u.2).1, (t.table.background t.store u.1 u.2).2⟩ written := by
  by_cases hi : ∃ p ps, t.table.frozen[u.1]? = some (p :: ps)
  · obtain ⟨p, ps, hi⟩ := hi
    obtain ⟨hback, hold, -⟩ := frozen_background (s := t.store) hi
    obtain ⟨uploaded, hsplit, hin⟩ := h.split
    have hp : p.Sound := h.table.sound _ (List.mem_of_getElem? hi) p List.mem_cons_self
    have hstore : MemTable.uploadRetry p t.store (u.2.take 10) = t.store.insert p.key (.arrow p.rows) := by
      obtain ⟨rest, hrest⟩ : ∃ rest, u.2 = .ok :: rest := by
        cases hattempts : u.2 with
        | nil =>
          rw [hattempts] at hok
          cases hok
        | cons first rest =>
          rw [hattempts] at hok
          cases hok
          exact ⟨rest, rfl⟩
      rw [hrest]
      rfl
    -- the rows of the partition go from the table to the uploaded ones
    have hmoved : ({ t.table with frozen := t.table.frozen.set u.1 ps }.buffered ++ (p.rows ++ uploaded)).Perm
        written := by
      refine List.Perm.trans ?_ hsplit
      rw [← List.append_assoc]
      exact (List.perm_append_comm.trans (buffered_background hi).symm).append_right uploaded
    rw [hback, hstore]
    refine ⟨⟨h.table.fresh, fun qs hqs p' hp' => ?_⟩, p.rows ++ uploaded, hmoved, hin.insert hp ?_⟩
    · obtain ⟨qs', hqs', hsub⟩ := hold qs hqs
      exact h.table.sound qs' hqs' p' (hsub hp')
    · have hnodup := (hmoved.map keyOf).nodup_iff.mpr hkeys
      rw [List.map_append] at hnodup
      exact hnodup.of_append_right
  · rw [(background_of_done hi).1]
    exact h

theorem Staged.uploadInBackground (h : Staged t written) (hkeys : (written.map keyOf).Nodup)
    {uploads : List BackgroundUpload} (hok : ∀ u ∈ uploads, u.2.head? = some .ok) :
    Staged (Durability.uploadInBackground t uploads) written := by
  induction uploads generalizing t with
  | nil => exact h
  | cons u uploads ih =>
    obtain ⟨hu, huploads⟩ := List.forall_mem_cons.mp hok
    exact ih (h.background hkeys hu) huploads

theorem Uploaded.flushPartitions {fallbackDir : Bool}
    {fallback : L0Partition → Bool} (h : Uploaded s rows) (hps : ∀ p ∈ ps, p.Sound)
    (hok : ∀ p, upload p = .ok) (hkeys : ((ps.flatMap L0Partition.rows ++ rows).map keyOf).Nodup) :
    ∃ uploaded, uploaded.Perm (ps.flatMap L0Partition.rows ++ rows) ∧
      Uploaded (MemTable.flushPartitions fallbackDir upload fallback s ps).1 uploaded := by
  induction ps generalizing s rows with
  | nil => exact ⟨rows, List.Perm.refl _, h⟩
  | cons p ps ih =>
    obtain ⟨hp, hps⟩ := List.forall_mem_cons.mp hps
    rw [List.flatMap_cons, List.append_assoc] at hkeys
    have hmoved : (p.rows ++ (ps.flatMap L0Partition.rows ++ rows)).Perm
        (ps.flatMap L0Partition.rows ++ (p.rows ++ rows)) := by
      rw [← List.append_assoc, ← List.append_assoc]
      exact List.perm_append_comm.append_right rows
    have hkeys' := (hmoved.map keyOf).nodup_iff.mp hkeys
    have hins : Uploaded (s.insert p.key (.arrow p.rows)) (p.rows ++ rows) := by
      refine h.insert hp ?_
      rw [List.map_append] at hkeys'
      exact hkeys'.of_append_right
    obtain ⟨uploaded, hperm, hin⟩ := ih hins hps hkeys'
    refine ⟨uploaded, ?_, ?_⟩
    · rw [List.flatMap_cons, List.append_assoc]
      exact hperm.trans hmoved.symm
    · rw [MemTable.flushPartitions, hok p]
      exact hin

theorem Staged.flush (h : Staged t written) (hkeys : (written.map keyOf).Nodup)
    (fallback : L0Partition → Bool) (hok : ∀ p, upload p = .ok) :
    Staged ⟨(t.table.flush t.store upload fallback).1, (t.table.flush t.store upload fallback).2.1⟩ written := by
  obtain ⟨uploaded, hsplit, hin⟩ := h.split
  have hmoved : (t.table.frozen.flatten.flatMap L0Partition.rows ++
      ((partitions t.table.skipList).flatMap L0Partition.rows ++ uploaded)).Perm written := by
    rw [rows_partitions, ← List.append_assoc]
    exact hsplit
  have hkeys' := (hmoved.map keyOf).nodup_iff.mpr hkeys
  rw [List.map_append] at hkeys'
  obtain ⟨uploaded', hperm, hin'⟩ := hin.flushPartitions
    (sound_partitions t.table.skipList) hok hkeys'.of_append_right
  refine ⟨h.table.flush _ _ _, uploaded', ?_, ?_⟩
  · rw [buffered_flush]
    exact (hperm.append_left _).trans hmoved
  · dsimp only
    rw [store_flush]
    exact hin'

/-- **A delta that is staged without error**: its rows are in the table or uploaded. -/
theorem Staged.stageDelta {rows : List (CkptDeltaRow × List BackgroundUpload)} (h : Staged t written)
    (hok : ∀ u ∈ rows.flatMap Prod.snd, u.2.head? = some .ok)
    (hkeys : (((rows.map fun r => r.1.row R xxhash) ++ written).map keyOf).Nodup)
    (hstaged : (Durability.stageDelta R xxhash t rows).2 = none) :
    Staged (Durability.stageDelta R xxhash t rows).1 ((rows.map fun r => r.1.row R xxhash) ++ written) := by
  induction rows generalizing t written with
  | nil => exact h
  | cons r rows ih =>
    obtain ⟨r, uploads⟩ := r
    rw [List.flatMap_cons] at hok
    have hmoved : ((((r, uploads) :: rows).map fun r => r.1.row R xxhash) ++ written).Perm
        ((rows.map fun r => r.1.row R xxhash) ++ (r.row R xxhash :: written)) := List.perm_middle.symm
    have hkeys' := (hmoved.map keyOf).nodup_iff.mp hkeys
    have hwritten : (written.map keyOf).Nodup := by
      rw [List.map_append] at hkeys
      exact hkeys.of_append_right
    have hback := h.uploadInBackground hwritten fun u hu => hok u (List.mem_append_left _ hu)
    rw [Durability.stageDelta] at hstaged ⊢
    set t₁ := Durability.uploadInBackground t uploads with ht₁
    cases herr : (t₁.table.write R xxhash (queryTierEvent r.heapKey r.entry)).2 with
    | some err =>
      rw [herr] at hstaged
      cases hstaged
    | none =>
      rw [herr] at hstaged
      have hacc : t₁.table.Accepts R xxhash (queryTierEvent r.heapKey r.entry) := by
        by_contra hacc
        exact (MemTable.write_of_not_accepts hacc).2 herr
      exact (ih (hback.write hacc) (fun u hu => hok u (List.mem_append_right _ hu)) hkeys' hstaged).perm hmoved.symm

theorem Staged.closeTable {sched : DeltaSchedule} (h : Staged t written) (hkeys : (written.map keyOf).Nodup)
    (hok : ∀ p, sched.closeUpload p = .ok) (hclosing : ∀ u ∈ sched.closing, u.2.head? = some .ok) :
    Staged (Durability.closeTable t sched) written := by
  have hflush := h.flush hkeys sched.closeFallback hok
  have hclosed : Staged ⟨{ (t.table.flush t.store sched.closeUpload sched.closeFallback).1 with closed := true },
      (t.table.flush t.store sched.closeUpload sched.closeFallback).2.1⟩ written :=
    ⟨⟨hflush.table.fresh, hflush.table.sound⟩, hflush.split⟩
  exact hclosed.uploadInBackground hkeys hclosing

/-- Behind `Close`, only background flushes can hold rows. -/
theorem buffered_closeTable (t : QueryTier) (sched : DeltaSchedule) :
    (closeTable t sched).table.buffered = (closeTable t sched).table.frozen.flatten.flatMap L0Partition.rows := by
  have hback : ∀ (uploads : List BackgroundUpload) (t : QueryTier),
      (uploadInBackground t uploads).table.skipList = t.table.skipList := by
    intro uploads
    induction uploads with
    | nil => exact fun _ => rfl
    | cons u uploads ih =>
      intro t
      refine (ih _).trans ?_
      show (t.table.background t.store u.1 u.2).1.skipList = t.table.skipList
      unfold MemTable.background
      split
      · rfl
      · rfl
  have hflush : (t.table.flush t.store sched.closeUpload sched.closeFallback).1.skipList.rows = [] := by
    unfold MemTable.flush
    split
    · next hcount => exact Arena.rows_eq_nil_iff.mpr hcount
    · rfl
  have hrows : (closeTable t sched).table.skipList.rows = [] := by
    rw [closeTable, hback]
    exact hflush
  rw [MemTable.buffered, hrows, List.append_nil]

/-! ### Which deltas are staged -/

def CkptDeltaRow.Writable (r : CkptDeltaRow) : Prop := r.heapKey.length ≤ 65535 ∧ validString r.heapKey = true

/-- A table of a checkpoint that is not closed. -/
structure Open (t : QueryTier) : Prop where
  table : t.table.WF
  arenaSize : t.table.arenaSize = 4194304
  isOpen : t.table.closed = false

theorem config_swap (m : MemTable) :
    m.swapAndFlushAsync.arenaSize = m.arenaSize ∧ m.swapAndFlushAsync.closed = m.closed := by
  unfold MemTable.swapAndFlushAsync
  split
  · exact ⟨rfl, rfl⟩
  · exact ⟨rfl, rfl⟩

theorem config_putRetry (n : Database.Node) (retries : ℕ) (m : MemTable) :
    (MemTable.putRetry n retries m).1.arenaSize = m.arenaSize ∧ (MemTable.putRetry n retries m).1.closed = m.closed := by
  induction retries generalizing m with
  | zero =>
    rw [MemTable.putRetry]
    split
    · exact ⟨rfl, rfl⟩
    · exact ⟨rfl, rfl⟩
  | succ retries ih =>
    rw [MemTable.putRetry]
    split
    · exact ⟨rfl, rfl⟩
    · obtain ⟨hsize, hclosed⟩ := ih { m with skipList := (m.skipList.put n).1 }.swapAndFlushAsync
      obtain ⟨hsize', hclosed'⟩ := config_swap { m with skipList := (m.skipList.put n).1 }
      exact ⟨hsize.trans hsize', hclosed.trans hclosed'⟩

theorem Open.write (h : Open t) (hacc : t.table.Accepts R xxhash ev) :
    Open ⟨(t.table.write R xxhash ev).1, t.store⟩ := by
  have hconfig : (t.table.write R xxhash ev).1.arenaSize = t.table.arenaSize ∧
      (t.table.write R xxhash ev).1.closed = t.table.closed := by
    rw [MemTable.write_of_accepts hacc]
    obtain ⟨hsize, hclosed⟩ := config_putRetry (MemTable.nodeOf (MemTable.eventRow R xxhash ev)) 3
      (if t.table.skipList.count ≥ t.table.maxEntries.toNat then t.table.swapAndFlushAsync else t.table)
    rw [hsize, hclosed]
    split
    · exact config_swap t.table
    · exact ⟨rfl, rfl⟩
  exact ⟨(hacc.write h.table).2.1, hconfig.1.trans h.arenaSize, hconfig.2.trans h.isOpen⟩

theorem Open.background (h : Open t) (u : BackgroundUpload) :
    Open ⟨(t.table.background t.store u.1 u.2).1, (t.table.background t.store u.1 u.2).2⟩ := by
  by_cases hi : ∃ p ps, t.table.frozen[u.1]? = some (p :: ps)
  · obtain ⟨p, ps, hi⟩ := hi
    obtain ⟨hback, hold, -⟩ := frozen_background (s := t.store) hi
    rw [hback]
    refine ⟨⟨h.table.fresh, fun qs hqs p' hp' => ?_⟩, h.arenaSize, h.isOpen⟩
    obtain ⟨qs', hqs', hsub⟩ := hold qs hqs
    exact h.table.sound qs' hqs' p' (hsub hp')
  · rw [(background_of_done hi).1]
    exact h

theorem Open.uploadInBackground (h : Open t) (uploads : List BackgroundUpload) :
    Open (Durability.uploadInBackground t uploads) := by
  induction uploads generalizing t with
  | nil => exact h
  | cons u uploads ih => exact ih (h.background u)

variable (R xxhash) in
theorem accepts_iff (h : Open t) (r : CkptDeltaRow) :
    t.table.Accepts R xxhash (queryTierEvent r.heapKey r.entry) ↔ r.Writable := by
  refine ⟨fun hacc => ⟨hacc.length, hacc.text⟩, fun hr => ⟨hr.1, hr.2, ?_, h.isOpen⟩⟩
  have hlen : r.heapKey.length ≤ 65535 := hr.1
  have hsize : t.table.arenaSize.toNat = 4194304 := by
    rw [h.arenaSize]
    rfl
  have hpayload : (MemTable.eventRow R xxhash (queryTierEvent r.heapKey r.entry)).payload.length = 0 := rfl
  rw [hsize, hpayload]
  show 40 + (54 + r.heapKey.length + 0) + 64 ≤ 4194304 - 64
  omega

/-- **A delta is staged without error iff all its identifiers are writable.** -/
theorem stageDelta_ok_iff {rows : List (CkptDeltaRow × List BackgroundUpload)} (h : Open t) :
    (stageDelta R xxhash t rows).2 = none ↔ ∀ r ∈ rows, r.1.Writable := by
  induction rows generalizing t with
  | nil => exact ⟨fun _ => List.forall_mem_nil _, fun _ => rfl⟩
  | cons r rows ih =>
    obtain ⟨r, uploads⟩ := r
    rw [stageDelta, List.forall_mem_cons]
    have hopen := h.uploadInBackground uploads
    set t₁ := Durability.uploadInBackground t uploads with ht₁
    by_cases hr : r.Writable
    · have hacc := (accepts_iff R xxhash hopen r).mpr hr
      rw [(hacc.write hopen.table).1]
      exact (ih (hopen.write hacc)).trans ⟨fun hrows => ⟨hr, hrows⟩, fun hrows => hrows.2⟩
    · have herr := (MemTable.write_of_not_accepts fun hacc =>
        hr ((accepts_iff R xxhash hopen r).mp hacc)).2
      obtain ⟨err, herr⟩ := Option.ne_none_iff_exists'.mp herr
      rw [herr]
      exact ⟨fun hnil => (Option.some_ne_none err hnil).elim, fun hrows => absurd hrows.1 hr⟩

theorem open_new (fallbackDir : Bool) (s : ObjectStore) : Open (newSnapshotMemTable fallbackDir s) :=
  ⟨MemTable.wf_new _ _ _, rfl, rfl⟩

theorem staged_new (fallbackDir : Bool) (s : ObjectStore) : Staged (newSnapshotMemTable fallbackDir s) [] := by
  refine ⟨MemTable.wf_new _ _ _, [], ?_, nofun⟩
  simp [newSnapshotMemTable, MemTable.buffered, MemTable.new, Arena.new, Arena.rows]

end

/-! ### The delta -/

section
variable {records : List SnapshotRecord} {e : EntityID}

theorem latestEntries_lookup (records : List SnapshotRecord) (id : EntityID) :
    (latestEntries records).lookup id =
      firstGreatest compareDots CRDTEntry.dot ((records.filter (·.entityID = id)).map IncomingEntry.entry) := by
  induction records using List.reverseRecOn with
  | nil => rfl
  | append_singleton records r ih =>
    have hfold : latestEntries (records ++ [r]) = noteLatest (latestEntries records) r := by
      simp [latestEntries]
    rw [hfold, List.filter_append, List.map_append]
    by_cases hr : r.entityID = id
    · subst hr
      have hone : [r].filter (·.entityID = r.entityID) = [r] := by simp
      rw [hone, List.map_singleton, firstGreatest_append_singleton, ← ih, noteLatest]
      cases hcur : (latestEntries records).lookup r.entityID with
      | none => exact AList.lookup_insert _
      | some cur =>
        simp only [keepGreatest]
        split
        · exact AList.lookup_insert _
        · exact hcur
    · have hnone : [r].filter (·.entityID = id) = [] := by simp [hr]
      rw [hnone, List.map_nil, List.append_nil, ← ih, noteLatest]
      split
      · exact AList.lookup_insert_ne (Ne.symm hr)
      · split
        · exact AList.lookup_insert_ne (Ne.symm hr)
        · rfl

/-- **The latest entry of an entity** has a dot that no other captured entry of it exceeds. -/
theorem latestEntries_spec (records : List SnapshotRecord) (e : EntityID) :
    (∀ entry, (latestEntries records).lookup e = some entry → ⟨e, entry⟩ ∈ records ∧
      ∀ r ∈ records, r.entityID = e → compareDots entry.dot r.entry.dot ≠ .lt) ∧
    ((latestEntries records).lookup e = none → ∀ r ∈ records, r.entityID ≠ e) := by
  rw [latestEntries_lookup]
  refine ⟨fun entry hentry => ⟨?_, fun r hr he => ?_⟩, fun hnone r hr he => ?_⟩
  · obtain ⟨before, after, hsplit, -⟩ := firstGreatest_eq_some_iff.mp hentry
    have hmem : entry ∈ (records.filter (·.entityID = e)).map IncomingEntry.entry := by simp [hsplit]
    obtain ⟨⟨id, x⟩, hx, rfl⟩ := List.mem_map.mp hmem
    obtain ⟨hin, hid⟩ := List.mem_filter.mp hx
    obtain rfl : id = e := by simpa using hid
    exact hin
  · exact not_lt_of_firstGreatest hentry (List.mem_map.mpr ⟨r, List.mem_filter.mpr ⟨hr, by simpa using he⟩, rfl⟩)
  · have hnil := List.map_eq_nil_iff.mp (firstGreatest_eq_none_iff.mp hnone)
    exact List.filter_eq_nil_iff.mp hnil r hr (by simpa using he)

theorem mem_planQueryTierDelta {debug : Bool} {w : Watermark} {latest : LatestEntries} {r : CkptDeltaRow} :
    r ∈ planQueryTierDelta debug w latest ↔
      latest.lookup r.heapKey = some r.entry ∧ (debug = true ∨ w.lookup r.heapKey ≠ some r.entry.dot) := by
  rw [planQueryTierDelta, List.mem_filterMap]
  constructor
  · rintro ⟨⟨e, entry⟩, hmem, heq⟩
    split at heq
    · cases heq
    · next hdue =>
      cases heq
      refine ⟨AList.mem_lookup_iff.mpr hmem, ?_⟩
      simp only [Bool.and_eq_true, Bool.not_eq_true', decide_eq_true_eq, not_and] at hdue
      cases debug with
      | true => exact .inl rfl
      | false => exact .inr (hdue rfl)
  · rintro ⟨hlookup, hdue⟩
    refine ⟨⟨r.heapKey, r.entry⟩, AList.mem_lookup_iff.mp hlookup, ?_⟩
    rw [if_neg]
    simp only [Bool.and_eq_true, Bool.not_eq_true', decide_eq_true_eq, not_and]
    intro hdebug
    exact hdue.resolve_left (by rw [hdebug]; nofun)

end

/-! ### The checkpoint -/

section
variable {R : Runtime} {xxhash : Bytes → UInt64} {b : IndexedBridge} {sched : DeltaSchedule}

/-- An image is written iff its identifiers fit, and it is read back then. -/
theorem writeSnapshotImage_ok_iff (objects : Objects) (image : SnapshotImage) :
    ((∃ objects', writeSnapshotImage objects image = .ok objects') ↔
      ∀ r ∈ image.records, r.entityID.length ≤ 65535) ∧
    ∀ objects', writeSnapshotImage objects image = .ok objects' → image.records.length < 2 ^ 64 →
      loadSnapshotImage objects' image.lamportHigh = .ok { image with records := sortRecords image.records } := by
  have hids : (∀ r ∈ image.records, r.entityID.length ≤ 65535) ↔
      ∀ r ∈ sortRecords image.records, r.entityID.length ≤ 0xFFFF := by
    simp only [(sortRecords_perm image.records).mem_iff]
  constructor
  · rw [hids]
    constructor
    · rintro ⟨objects', hok⟩
      unfold writeSnapshotImage at hok
      split at hok
      · cases hok
      · next data hdata => exact (decode_encodeSnapshotImage hdata).2
    · intro hfit
      rw [writeSnapshotImage, encodeSnapshotImage, encodeRecords_eq hfit]
      exact ⟨_, rfl⟩
  · intro objects' hok hcount
    unfold writeSnapshotImage at hok
    split at hok
    · cases hok
    · next data hdata =>
      cases hok
      obtain ⟨hdecode, hfit⟩ := decode_encodeSnapshotImage hdata
      rw [decodeBody_encode hfit, if_pos (by omega)] at hdecode
      rw [loadSnapshotImage, Function.update_self]
      simp only [hdecode, ne_eq, not_true_eq_false, if_false]

/-- The first part of a checkpoint without faults: the record is appended, then the image is written. -/
theorem appendCheckpoint_none (b : Bridge) :
    (∃ bridge, b.appendCheckpoint R .none = (bridge, .ok ()) ∧
      ((b.snapshotter = none ∧ bridge.snapshotter = none) ∨
        ∃ objects objects', b.snapshotter = some objects ∧ bridge.snapshotter = some objects' ∧
          writeSnapshotImage objects (imageOf R b.engine.localNodeID (b.engine.captureShardsPinned R).1 b.wal.nextSeq) =
            .ok objects')) ∨
    ∃ bridge err objects, b.appendCheckpoint R .none = (bridge, .error err) ∧ b.snapshotter = some objects ∧
      ¬ ∃ objects', writeSnapshotImage objects
        (imageOf R b.engine.localNodeID (b.engine.captureShardsPinned R).1 b.wal.nextSeq) = .ok objects' := by
  unfold Bridge.appendCheckpoint
  simp only [WAL.appendCheckpoint, WAL.writeSync, WAL.write, Faults.none, if_true]
  cases hsnap : b.snapshotter with
  | none => exact .inl ⟨_, rfl, .inl ⟨rfl, rfl⟩⟩
  | some objects =>
    dsimp only
    cases hwrite : writeSnapshotImage objects
        (imageOf R b.engine.localNodeID (b.engine.captureShardsPinned R).1 b.wal.nextSeq) with
    | error err => exact .inr ⟨_, _, objects, rfl, rfl, by simp [hwrite]⟩
    | ok objects' => exact .inl ⟨_, rfl, .inr ⟨objects, objects', rfl, rfl, hwrite⟩⟩

/-- The second part: nil iff the identifiers of the delta are writable. -/
theorem flushed_ok_iff (hff : sched.FaultFree R xxhash b) :
    (b.flushed R xxhash sched).2 = none ↔ ∀ r ∈ b.delta R, r.Writable := by
  have hrows : (∀ r ∈ b.delta R, r.Writable) ↔ ∀ r ∈ sched.rows, r.1.Writable := by
    simp only [← hff.delta.mem_iff, DeltaSchedule.delta, List.forall_mem_map]
  rw [hrows, ← stageDelta_ok_iff (R := R) (open_new b.snapshotFallbackDir b.store)]
  refine ⟨fun hnil => staged_of_nil hnil, fun hstaged => ?_⟩
  rw [IndexedBridge.flushed, stageAndFlush_of_staged hstaged]
  dsimp only
  rw [store_flush, flushPartitions_of_ok fun p _ => hff.upload p]
  rfl

/-- **The rows of the delta are in the query tier** when the call has returned nil. -/
theorem inQueryTier_of_flushed (hff : sched.FaultFree R xxhash b)
    (hkeys : ((b.delta R).map fun r => (entityHash8 R r.heapKey, r.entry.systemTime)).Nodup)
    (hnil : (b.flushed R xxhash sched).2 = none) :
    ∀ r ∈ b.delta R, InQueryTier R (closeTable (b.flushed R xxhash sched).1 sched).store (r.row R xxhash) := by
  set written := sched.delta.map fun r => r.row R xxhash with hwritten
  have hkeyOf : ∀ r : CkptDeltaRow, keyOf (r.row R xxhash) = (entityHash8 R r.heapKey, r.entry.systemTime) := fun r => by
    show (keyHash (entityHash16 R r.heapKey), r.entry.systemTime) = _
    rw [keyHash_entityHash16]
  have hnodup : (written.map keyOf).Nodup := by
    rw [hwritten, List.map_map]
    refine ((hff.delta.map _).nodup_iff).mpr ?_
    rwa [show (keyOf ∘ fun r => r.row R xxhash) = fun r : CkptDeltaRow =>
      (entityHash8 R r.heapKey, r.entry.systemTime) from funext hkeyOf]
  have hback : ∀ u ∈ sched.rows.flatMap Prod.snd ++ (sched.before ++ sched.closing), u.2.head? = some .ok :=
    hff.background
  -- staged, flushed and closed
  have hclosed : Staged (closeTable (b.flushed R xxhash sched).1 sched) written := by
    have hstaged := staged_of_nil hnil
    have hrows : (sched.rows.map fun r => r.1.row R xxhash) ++ [] = written := by
      rw [List.append_nil, hwritten, DeltaSchedule.delta, List.map_map]
      rfl
    have hloop := (staged_new b.snapshotFallbackDir b.store).stageDelta (R := R)
      (fun u hu => hback u (List.mem_append_left _ hu)) (by rw [hrows]; exact hnodup) hstaged
    rw [hrows] at hloop
    have hbefore := hloop.uploadInBackground hnodup fun u hu =>
      hback u (List.mem_append_right _ (List.mem_append_left _ hu))
    have hflush := hbefore.flush hnodup sched.fallback hff.upload
    rw [IndexedBridge.flushed, stageAndFlush_of_staged hstaged]
    exact hflush.closeTable hnodup hff.closeUpload fun u hu =>
      hback u (List.mem_append_right _ (List.mem_append_right _ hu))
  obtain ⟨uploaded, hsplit, hin⟩ := hclosed.split
  rw [buffered_closeTable, hff.waited, List.flatMap_nil, List.nil_append] at hsplit
  intro r hr
  have hrow : r.row R xxhash ∈ uploaded :=
    hsplit.mem_iff.mpr (List.mem_map_of_mem (hff.delta.mem_iff.mpr hr))
  obtain ⟨first, -, hhash, hat⟩ := hin _ hrow
  have hprefix : tierPrefix .l0 (entityHash8 R (r.row R xxhash).entityID) <+:
      l0KeyFor (keyHash first.entityIDHash) first.systemTime := by
    refine tierPrefix_isPrefix_iff.mpr ⟨rfl, ?_⟩
    rw [hhash, ← keyHash_entityHash16]
    rfl
  exact ⟨_, mem_listObjects_of_mem_rowsAt hat hprefix, hat⟩

theorem captured_of_mem_delta {r : CkptDeltaRow} (hr : r ∈ b.delta R) : ⟨r.heapKey, r.entry⟩ ∈ b.captured R :=
  ((latestEntries_spec (b.captured R) r.heapKey).1 r.entry (mem_planQueryTierDelta.mp hr).1).1

theorem writable_iff (hfit : ∀ r ∈ b.captured R, r.entityID.length ≤ 65535) :
    (∀ r ∈ b.delta R, r.Writable) ↔ ∀ r ∈ b.delta R, validString r.heapKey = true :=
  forall₂_congr fun _ hr => and_iff_right (hfit _ (captured_of_mem_delta hr))

/-- The latest entry of an entity whose watermark is another one is due. -/
theorem mem_delta_of_latest {r : SnapshotRecord} (hr : r ∈ b.captured R)
    (hmax : ∀ r' ∈ b.captured R, r'.entityID = r.entityID → r' ≠ r → compareDots r'.entry.dot r.entry.dot = .lt)
    (hdue : b.lastFlushedDot.lookup r.entityID ≠ some r.entry.dot) : ⟨r.entityID, r.entry⟩ ∈ b.delta R := by
  refine mem_planQueryTierDelta.mpr ⟨?_, .inr hdue⟩
  obtain ⟨hsome, hnone⟩ := latestEntries_spec (b.captured R) r.entityID
  cases hlatest : (latestEntries (b.captured R)).lookup r.entityID with
  | none => exact absurd rfl (hnone hlatest r hr)
  | some entry =>
    obtain ⟨hmem, hge⟩ := hsome entry hlatest
    by_contra hne
    refine hge r hr rfl (hmax ⟨r.entityID, entry⟩ hmem rfl fun heq => hne ?_)
    rw [← heq]

/-- **A checkpoint without faults** returns nil iff the captured identifiers fit the image and those of the delta are
valid; then the image is read back, and the latest entry of every changed entity is in the query tier. -/
theorem checkpoint_succeeds_iff (hff : sched.FaultFree R xxhash b) :
    ((b.appendCheckpoint R xxhash .none sched).2 = .ok () ↔
      b.bridge.snapshotter = none ∨ (∀ r ∈ b.captured R, r.entityID.length ≤ 65535) ∧
        (b.snapshotIndexEnabled = true → ∀ r ∈ b.delta R, validString r.heapKey = true)) ∧
    ((b.appendCheckpoint R xxhash .none sched).2 = .ok () → b.bridge.snapshotter ≠ none →
      ((b.captured R).length < 2 ^ 64 → ∃ objects image,
        (b.appendCheckpoint R xxhash .none sched).1.bridge.snapshotter = some objects ∧
        loadSnapshotImage objects (b.bridge.engine.captureShardsPinned R).2.2 = .ok image ∧
        image.records.Perm (b.captured R) ∧ image.merkleRoot = (b.bridge.engine.captureShardsPinned R).2.1) ∧
      (b.snapshotIndexEnabled = true →
        ((b.delta R).map fun r => (entityHash8 R r.heapKey, r.entry.systemTime)).Nodup →
        ∀ r ∈ b.captured R, (∀ r' ∈ b.captured R, r'.entityID = r.entityID → r' ≠ r →
            compareDots r'.entry.dot r.entry.dot = .lt) →
          b.lastFlushedDot.lookup r.entityID ≠ some r.entry.dot →
            InQueryTier R (b.appendCheckpoint R xxhash .none sched).1.store
              (CkptDeltaRow.row R xxhash ⟨r.entityID, r.entry⟩))) := by
  rcases appendCheckpoint_none (R := R) b.bridge with
    ⟨bridge, hbridge, ⟨hsnap, -⟩ | ⟨objects, objects', hsnap, hsnap', hwrite⟩⟩ |
      ⟨bridge, err, objects, hbridge, hsnap, hfails⟩
  · -- no store is wired
    have hok : (b.appendCheckpoint R xxhash .none sched).2 = .ok () := by
      rw [IndexedBridge.appendCheckpoint, hbridge]
      simp [hsnap]
    exact ⟨⟨fun _ => .inl hsnap, fun _ => hok⟩, fun _ hsome => absurd hsnap hsome⟩
  · obtain ⟨hfits, hload⟩ := writeSnapshotImage_ok_iff objects
      (imageOf R b.bridge.engine.localNodeID (b.bridge.engine.captureShardsPinned R).1 b.bridge.wal.nextSeq)
    have hfit : ∀ r ∈ b.captured R, r.entityID.length ≤ 65535 := hfits.mp ⟨objects', hwrite⟩
    have himage : ∀ {result : IndexedBridge}, result.bridge = bridge → (b.captured R).length < 2 ^ 64 →
        ∃ objects image, result.bridge.snapshotter = some objects ∧
          loadSnapshotImage objects (b.bridge.engine.captureShardsPinned R).2.2 = .ok image ∧
          image.records.Perm (b.captured R) ∧ image.merkleRoot = (b.bridge.engine.captureShardsPinned R).2.1 := by
      intro result hresult hcount
      exact ⟨objects', _, hresult ▸ hsnap', hload objects' hwrite hcount, sortRecords_perm _, rfl⟩
    by_cases hindex : b.snapshotIndexEnabled = true
    · have hoff : ¬ ((b.bridge.snapshotter.isNone || !b.snapshotIndexEnabled) = true) := by simp [hsnap, hindex]
      have hflushed := flushed_ok_iff hff
      rw [IndexedBridge.appendCheckpoint, hbridge]
      dsimp only
      rw [if_neg hoff]
      cases herr : (b.flushed R xxhash sched).2 with
      | some err =>
        rw [herr] at hflushed
        refine ⟨⟨nofun, ?_⟩, nofun⟩
        rintro (hnone | ⟨-, hvalid⟩)
        · rw [hsnap] at hnone
          cases hnone
        · cases hflushed.mpr ((writable_iff hfit).mpr (hvalid hindex))
      | none =>
        have hvalid := (writable_iff hfit).mp (hflushed.mp herr)
        refine ⟨⟨fun _ => .inr ⟨hfit, fun _ => hvalid⟩, fun _ => rfl⟩, fun _ _ => ⟨himage rfl, ?_⟩⟩
        intro _ hkeys r hr hmax hdue
        exact inQueryTier_of_flushed hff hkeys herr _ (mem_delta_of_latest hr hmax hdue)
    · have hoff : (b.bridge.snapshotter.isNone || !b.snapshotIndexEnabled) = true := by simp [hindex]
      rw [IndexedBridge.appendCheckpoint, hbridge]
      dsimp only
      rw [if_pos hoff]
      exact ⟨⟨fun _ => .inr ⟨hfit, fun hon => absurd hon hindex⟩, fun _ => rfl⟩,
        fun _ _ => ⟨himage rfl, fun hon => absurd hon hindex⟩⟩
  · -- the image is refused
    have hfits := (writeSnapshotImage_ok_iff objects
      (imageOf R b.bridge.engine.localNodeID (b.bridge.engine.captureShardsPinned R).1 b.bridge.wal.nextSeq)).1
    rw [IndexedBridge.appendCheckpoint, hbridge]
    refine ⟨⟨nofun, ?_⟩, nofun⟩
    rintro (hnone | ⟨hfit, -⟩)
    · rw [hsnap] at hnone
      cases hnone
    · exact absurd (hfits.mpr hfit) hfails

def indexed (bridge : Bridge) : IndexedBridge := ⟨{ bridge with snapshotter := some fun _ => none }, ∅, true, true, false, ∅⟩

/-- The delta in this order, with nothing in the background. -/
def plainSchedule (delta : List CkptDeltaRow) : DeltaSchedule :=
  ⟨delta.map fun r => (r, []), [], fun _ => .ok, fun _ => true, fun _ => .ok, fun _ => true, []⟩

theorem faultFree_plain {delta : List CkptDeltaRow} (hdelta : delta.Perm (b.delta R))
    (hwaited : (closeTable (b.flushed R xxhash (plainSchedule delta)).1 (plainSchedule delta)).table.frozen.flatten = []) :
    (plainSchedule delta).FaultFree R xxhash b := by
  refine ⟨?_, fun _ => rfl, fun _ => rfl, fun u hu => ?_, hwaited⟩
  · have hsame : (plainSchedule delta).delta = delta := by
      rw [plainSchedule, DeltaSchedule.delta, List.map_map]
      exact List.map_id delta
    rwa [hsame]
  · simp [plainSchedule] at hu

/-- A bridge behind local writes of these entities. -/
def writtenBridge (ids : List EntityID) : Bridge × List CausalDot × Except AppendError Unit :=
  sampleBridge.putLocals .sample (ids.map fun id => { sampleItem with entityID := id }) .none

set_option maxRecDepth 100000 in
theorem checkpoint_succeeds_behind_a_write :
    (writtenBridge [[0x61]]).2.2 = .ok () ∧
      ((indexed (writtenBridge [[0x61]]).1).appendCheckpoint .sample (fun _ => 0) .none
        (plainSchedule ((indexed (writtenBridge [[0x61]]).1).delta .sample))).2 = .ok () := by
  refine ⟨by decide +kernel, ?_⟩
  have hff : (plainSchedule ((indexed (writtenBridge [[0x61]]).1).delta .sample)).FaultFree .sample (fun _ => 0)
      (indexed (writtenBridge [[0x61]]).1) := faultFree_plain (List.Perm.refl _) (by decide +kernel)
  exact (checkpoint_succeeds_iff hff).1.mpr (.inr ⟨by decide +kernel, fun _ => by decide +kernel⟩)

set_option maxRecDepth 100000 in
/-- Two acknowledged writes, one of them of an entity whose identifier is not UTF-8: the checkpoint fails, and the other
entity is not in the query tier. -/
theorem invalid_id_blocks_the_others :
    (writtenBridge [[0xff], [0x61]]).2.2 = .ok () ∧
      (plainSchedule ((indexed (writtenBridge [[0xff], [0x61]]).1).delta .sample)).FaultFree .sample (fun _ => 0)
        (indexed (writtenBridge [[0xff], [0x61]]).1) ∧
      ((indexed (writtenBridge [[0xff], [0x61]]).1).appendCheckpoint .sample (fun _ => 0) .none
        (plainSchedule ((indexed (writtenBridge [[0xff], [0x61]]).1).delta .sample))).2.isOk = false ∧
      ((indexed (writtenBridge [[0xff], [0x61]]).1).appendCheckpoint .sample (fun _ => 0) .none
        (plainSchedule ((indexed (writtenBridge [[0xff], [0x61]]).1).delta .sample))).1.store.keys = [] :=
  ⟨by decide +kernel, faultFree_plain (List.Perm.refl _) (by decide +kernel), by decide +kernel, by decide +kernel⟩

end

end Sovereign.Durability

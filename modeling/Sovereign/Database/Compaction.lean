import Sovereign.Database.Query

/-!
# Compaction and reaping

`internal/database/l1_compactor.go` and `l0_reaper.go`: the L0 files of an entity are merged into one L1 file
with a manifest that lists them, and later the files a manifest lists are deleted.

* `dominancePrune` — the sweep that drops rows covered by a later row below a horizon;
* `compaction` — list, read, merge, prune, upload the L1 file, upload the manifest.  A file that cannot be
  read is passed over, a row of another entity is filtered out, and the manifest lists **all** files;
* `reap` — for every manifest whose L1 file is there, delete the L0 files it lists, then the manifest.

`WritesManifest.store` and `reap_spec` say what the two do to the store, and `manifest_is_sound_iff` when the
L1 file has all rows of the files its manifest lists, so that no sweep deletes the last copy of one.

The scheduler that picks entities, the inferred horizon and telemetry are left out.
-/

namespace Sovereign.Database

open Lib Sync

/-! ### Pruning -/

/-- `liveInterval`: the valid time of a row that may dominate others. -/
abbrev LiveInterval := Int64 × Int64

def Row.interval (r : Row) : LiveInterval := (r.validTimeStart, r.validTimeEnd)

def Row.coveredBy (r : Row) (i : LiveInterval) : Bool := i.1 ≤ r.validTimeStart && r.validTimeEnd ≤ i.2

/-- One batch of the sweep: probe its rows against the intervals of the batches behind it, then let the
survivors join them unless the batch is above the horizon. -/
def sweepBatch (horizon : Int64) (batch : Int64 × List Row) (swept : List LiveInterval × List Row) :
    List LiveInterval × List Row :=
  let survivors := batch.2.filter fun r => !swept.1.any r.coveredBy
  (if batch.1 ≤ horizon then swept.1 ++ survivors.map Row.interval else swept.1, survivors ++ swept.2)

/-- `DominancePrune`: the sweep over the batches of equal system time, from the last to the first. -/
def dominancePrune (rows : List Row) (horizon : Int64) : List Row :=
  if rows.isEmpty ∨ horizon ≤ 0 then rows
  else ((groupRuns (fun r : Row => r.systemTime) rows).foldr (sweepBatch horizon) ([], [])).2

/-! ### `Compaction` -/

/-- `CompactionConfig`, the fields a compaction reads. -/
structure CompactionConfig where
  enableDominancePruning : Bool
  pruningHorizonInt64Ns : Int64
deriving DecidableEq

def defaultCompactionConfig : CompactionConfig := ⟨false, 0⟩

def CompactionConfig.prune (c : CompactionConfig) (rows : List Row) : List Row :=
  if c.enableDominancePruning && 0 < c.pruningHorizonInt64Ns then dominancePrune rows c.pruningHorizonInt64Ns
  else rows

structure CompactionFaults where
  list : Bool
  /-- The context is done when it is the turn of this file. -/
  cancelled : ObjectKey → Bool
  read : ObjectKey → ReadFault
  uploadL1 : UploadOutcome
  uploadManifest : UploadOutcome

/-- Nothing fails. -/
def CompactionFaults.none : CompactionFaults := ⟨false, fun _ => false, fun _ => .none, .ok, .ok⟩

inductive CompactionError where
  | list
  | cancelled
  | uploadL1
  | uploadManifest
  /-- `CompactionByHash8` finds no entity in the first file. -/
  | recoverEntityID
deriving DecidableEq

structure CompactionResult where
  entityHash8 : Hash8
  l0Files : List ObjectKey
  l1Key : ObjectKey
  manifestKey : ObjectKey
  rows : ℕ
  alreadyMoved : Bool
  rowsBefore : ℕ
  rowsAfter : ℕ
  rowsPruned : ℕ
deriving DecidableEq

/-- The result where there is nothing to write. -/
def CompactionResult.moved (h : Hash8) (l0Keys : List ObjectKey) (rowsBefore : ℕ) : CompactionResult :=
  ⟨h, l0Keys, [], [], 0, true, rowsBefore, 0, rowsBefore⟩

section
variable (R : Runtime)

/-- The filter of `extractEntityRowsFromRecord`. -/
def belongs (entityID : EntityID) (r : Row) : Bool :=
  r.entityIDHash = entityHash16 R entityID && r.entityID = entityID

/-- The rows of the entity in the files that can be read. -/
def readEntityRows (f : CompactionFaults) (s : ObjectStore) (entityID : EntityID) :
    List ObjectKey → Except CompactionError (List Row)
  | [] => .ok []
  | key :: keys =>
    if f.cancelled key then .error .cancelled
    else
      match s.readRows key (f.read key) with
      | none => readEntityRows f s entityID keys
      | some rows => (readEntityRows f s entityID keys).map (rows.filter (belongs R entityID) ++ ·)

/-- The L0 files of a hash in the order in which they are merged. -/
def compactionKeys (s : ObjectStore) (h : Hash8) : List ObjectKey := sortStrings (s.listObjects (tierPrefix .l0 h))

/-- Upload the L1 file, then the manifest. -/
def writeL1 (f : CompactionFaults) (s : ObjectStore) (h : Hash8) (l0Keys : List ObjectKey) (rowsBefore : ℕ)
    (first : Row) (rows : List Row) : ObjectStore × Except CompactionError CompactionResult :=
  let l1Key := l1KeyFor h first.systemTime
  let manifestKey := manifestKeyFor h first.systemTime
  let l1 := s.upload l1Key (.arrow rows) f.uploadL1
  if !l1.2 then (l1.1, .error .uploadL1)
  else
    let manifest := l1.1.upload manifestKey (.manifest (buildManifest l1Key l0Keys)) f.uploadManifest
    if !manifest.2 then (manifest.1, .error .uploadManifest)
    else (manifest.1, .ok ⟨h, l0Keys, l1Key, manifestKey, rows.length, false, rowsBefore, rows.length,
      rowsBefore - rows.length⟩)

def compaction (c : CompactionConfig) (f : CompactionFaults) (s : ObjectStore) (entityID : EntityID) (h : Hash8) :
    ObjectStore × Except CompactionError CompactionResult :=
  if f.list then (s, .error .list)
  else
    match readEntityRows R f s entityID (compactionKeys s h) with
    | .error e => (s, .error e)
    | .ok merged =>
      match c.prune (sortBy compare Row.frag merged) with
      | [] => (s, .ok (.moved h (compactionKeys s h) merged.length))
      | first :: rest => writeL1 f s h (compactionKeys s h) merged.length first (first :: rest)

/-- `CompactionByHash8`: the entity is that of the first row of the first file. -/
def compactionByHash8 (c : CompactionConfig) (listFails : Bool) (readFirst : ReadFault) (f : CompactionFaults)
    (s : ObjectStore) (h : Hash8) : ObjectStore × Except CompactionError CompactionResult :=
  if listFails then (s, .error .list)
  else
    match compactionKeys s h with
    | [] => (s, .ok (.moved h [] 0))
    | key :: _ =>
      match s.readRows key readFirst with
      | none => (s, .error .recoverEntityID)
      | some [] => (s, .error .recoverEntityID)
      | some (row :: _) =>
        if row.entityID.isEmpty then (s, .error .recoverEntityID) else compaction R c f s row.entityID h

end

/-! ### `Reap` -/

structure ReapFaults where
  list : Bool
  /-- The context is done when it is the turn of this manifest. -/
  cancelled : ObjectKey → Bool
  /-- The manifest cannot be downloaded. -/
  manifest : ObjectKey → Bool
  /-- The L1 file of the manifest cannot be downloaded. -/
  l1 : ObjectKey → Bool
  /-- At the turn of the manifest, the object cannot be deleted. -/
  delete : ObjectKey → ObjectKey → Bool

/-- Nothing fails. -/
def ReapFaults.none : ReapFaults := ⟨false, fun _ => false, fun _ => false, fun _ => false, fun _ _ => false⟩

structure ReapResult where
  reapedManifests : ℕ
  reapedL0 : ℕ
  skippedOrphan : ℕ
  skippedError : ℕ
deriving DecidableEq

/-- Delete the files in order up to the first failure; how many were deleted, and whether all were. -/
def deleteL0s (fails : ObjectKey → Bool) (s : ObjectStore) : List ObjectKey → ObjectStore × ℕ × Bool
  | [] => (s, 0, true)
  | key :: keys =>
    if fails key then (s, 0, false)
    else
      let rest := deleteL0s fails (s.delete key) keys
      (rest.1, rest.2.1 + 1, rest.2.2)

def reapManifest (f : ReapFaults) (s : ObjectStore) (result : ReapResult) (mk : ObjectKey) :
    ObjectStore × ReapResult :=
  if !Tier.compaction.suffix.isSuffixOf mk then (s, result)
  else
    match s.readLines mk (f.manifest mk) with
    | none => (s, { result with skippedOrphan := result.skippedOrphan + 1 })
    | some lines =>
      let parsed := parseManifest lines
      if parsed.1.isEmpty || (s.lookup parsed.1).isNone || f.l1 mk then
        (s, { result with skippedOrphan := result.skippedOrphan + 1 })
      else
        let deleted := deleteL0s (f.delete mk) s parsed.2
        let result := { result with reapedL0 := result.reapedL0 + deleted.2.1 }
        if !deleted.2.2 || f.delete mk mk then
          (deleted.1, { result with skippedError := result.skippedError + 1 })
        else (deleted.1.delete mk, { result with reapedManifests := result.reapedManifests + 1 })

def reapLoop (f : ReapFaults) : ObjectStore → ReapResult → List ObjectKey → ObjectStore × ReapResult
  | s, result, [] => (s, result)
  | s, result, mk :: mks =>
    if f.cancelled mk then (s, result)
    else
      let next := reapManifest f s result mk
      reapLoop f next.1 next.2 mks

def reap (f : ReapFaults) (s : ObjectStore) : ObjectStore × ReapResult :=
  if f.list then (s, ⟨0, 0, 0, 0⟩) else reapLoop f s ⟨0, 0, 0, 0⟩ (s.listObjects Tier.compaction.dir)

/-! ### What a compaction reads and writes -/

def ObjectStore.rowsAt (s : ObjectStore) (key : ObjectKey) : List Row :=
  match s.lookup key with
  | some (.arrow rows) => rows
  | _ => []

section
variable {R : Runtime} {c : CompactionConfig} {f : CompactionFaults} {s : ObjectStore} {entityID : EntityID}
  {h : Hash8}

variable {key : ObjectKey} {row : Row} {rows : List Row}

theorem ObjectStore.rowsAt_of_lookup (hkey : s.lookup key = some (.arrow rows)) : s.rowsAt key = rows := by
  simp only [ObjectStore.rowsAt, hkey]

theorem ObjectStore.lookup_of_mem_rowsAt (hrow : row ∈ s.rowsAt key) :
    s.lookup key = some (.arrow (s.rowsAt key)) := by
  unfold ObjectStore.rowsAt at hrow ⊢
  split at hrow
  · next rows hkey => exact hkey
  · cases hrow

theorem mem_rowsAt_of_readRows {fault : ReadFault}
    (hread : s.readRows key fault = some rows) (hrow : row ∈ rows) : row ∈ s.rowsAt key ∧ fault = .none := by
  unfold ObjectStore.readRows at hread
  split at hread
  · next rows' hkey =>
    cases hread
    rw [ObjectStore.rowsAt_of_lookup hkey]
    exact ⟨hrow, rfl⟩
  · cases hread
    cases hrow
  · cases hread

theorem readRows_of_mem_rowsAt (hrow : row ∈ s.rowsAt key) : s.readRows key .none = some (s.rowsAt key) :=
  ObjectStore.readRows_ok (ObjectStore.lookup_of_mem_rowsAt hrow)

theorem mem_compactionKeys : key ∈ compactionKeys s h ↔ key ∈ s.listObjects (tierPrefix .l0 h) :=
  (sortBy_perm _).mem_iff

theorem mem_listObjects_of_mem_rowsAt (hrow : row ∈ s.rowsAt key) {pre : Bytes}
    (hpre : pre <+: key) : key ∈ s.listObjects pre :=
  ObjectStore.mem_listObjects.mpr ⟨ObjectStore.mem_of_lookup (ObjectStore.lookup_of_mem_rowsAt hrow), hpre⟩

/-- **The merged rows**: those of the entity in the files that are read. -/
theorem mem_readEntityRows {keys : List ObjectKey} {merged : List Row}
    (hread : readEntityRows R f s entityID keys = .ok merged) :
    row ∈ merged ↔
      belongs R entityID row = true ∧ ∃ key ∈ keys, f.read key = .none ∧ row ∈ s.rowsAt key := by
  induction keys generalizing merged with
  | nil =>
    cases hread
    simp
  | cons key keys ih =>
    rw [readEntityRows] at hread
    split at hread
    · cases hread
    · split at hread
      · next hnone =>
        have hskip : ¬ (f.read key = .none ∧ row ∈ s.rowsAt key) := by
          rintro ⟨hok, hrow⟩
          rw [hok, readRows_of_mem_rowsAt hrow] at hnone
          cases hnone
        rw [ih hread]
        simp [hskip]
      · next rows hrows =>
        cases htail : readEntityRows R f s entityID keys with
        | error e =>
          rw [htail] at hread
          cases hread
        | ok merged' =>
          rw [htail] at hread
          cases hread
          have hhead : row ∈ rows ↔ f.read key = .none ∧ row ∈ s.rowsAt key := by
            constructor
            · intro hrow
              exact (mem_rowsAt_of_readRows hrows hrow).symm
            · rintro ⟨hok, hrow⟩
              rw [hok, readRows_of_mem_rowsAt hrow] at hrows
              cases hrows
              exact hrow
          rw [List.mem_append, List.mem_filter, ih htail, hhead]
          simp only [List.mem_cons, exists_eq_or_imp]
          tauto

/-- The compaction gets as far as its manifest, with `rows` in the L1 file and `first` before the others. -/
structure WritesManifest (R : Runtime) (c : CompactionConfig) (f : CompactionFaults) (s : ObjectStore)
    (entityID : EntityID) (h : Hash8) (first : Row) (rows : List Row) : Prop where
  list : f.list = false
  merged : ∃ merged, readEntityRows R f s entityID (compactionKeys s h) = .ok merged ∧
    c.prune (sortBy compare Row.frag merged) = rows
  head : rows.head? = some first
  l1 : f.uploadL1 = .ok
  manifest : f.uploadManifest ≠ .failed

/-- The rows that a compaction merges and keeps, with `first` before the others. -/
structure Merges (R : Runtime) (c : CompactionConfig) (f : CompactionFaults) (s : ObjectStore)
    (entityID : EntityID) (h : Hash8) (first : Row) (rows : List Row) : Prop where
  merged : ∃ merged, readEntityRows R f s entityID (compactionKeys s h) = .ok merged ∧
    c.prune (sortBy compare Row.frag merged) = rows
  head : rows.head? = some first

theorem WritesManifest.merges {first : Row} (hw : WritesManifest R c f s entityID h first rows) :
    Merges R c f s entityID h first rows := ⟨hw.merged, hw.head⟩

/-- **What a compaction leaves in the store** when it gets as far as its manifest. -/
theorem WritesManifest.store {first : Row} (hw : WritesManifest R c f s entityID h first rows) :
    (compaction R c f s entityID h).1 =
      (s.insert (l1KeyFor h first.systemTime) (.arrow rows)).insert (manifestKeyFor h first.systemTime)
        (.manifest (buildManifest (l1KeyFor h first.systemTime) (compactionKeys s h))) := by
  obtain ⟨hlist, ⟨merged, hmerged, hrows⟩, hhead, hl1, hmanifest⟩ := hw
  obtain ⟨rest, rfl⟩ : ∃ rest, rows = first :: rest := by
    cases rows with
    | nil => cases hhead
    | cons row rest =>
      cases hhead
      exact ⟨rest, rfl⟩
  rw [compaction, hlist, if_neg Bool.false_ne_true, hmerged]
  simp only [hrows, writeL1, hl1, ObjectStore.upload, Bool.not_true, Bool.false_eq_true, if_false]
  cases hm : f.uploadManifest with
  | ok => rfl
  | failed => exact absurd hm hmanifest
  | written => rfl

/-- **Otherwise** it leaves the store as it was, or with an L1 file that no manifest names. -/
theorem compaction_store_cases :
    (compaction R c f s entityID h).1 = s ∨
      (∃ first rows, Merges R c f s entityID h first rows ∧
        (compaction R c f s entityID h).1 = s.insert (l1KeyFor h first.systemTime) (.arrow rows)) ∨
      ∃ first rows, WritesManifest R c f s entityID h first rows := by
  by_cases hlist : f.list = true
  · exact .inl (by rw [compaction, if_pos hlist])
  cases hmerged : readEntityRows R f s entityID (compactionKeys s h) with
  | error e => exact .inl (by rw [compaction, if_neg hlist, hmerged])
  | ok merged =>
    cases hrows : c.prune (sortBy compare Row.frag merged) with
    | nil =>
      left
      rw [compaction, if_neg hlist, hmerged]
      simp only [hrows]
    | cons first rest =>
      have hstore : (compaction R c f s entityID h).1 =
          (writeL1 f s h (compactionKeys s h) merged.length first (first :: rest)).1 := by
        rw [compaction, if_neg hlist, hmerged]
        simp only [hrows]
      rw [hstore, writeL1]
      cases hl1 : f.uploadL1 with
      | failed => exact .inl rfl
      | written => exact .inr (.inl ⟨first, _, ⟨⟨merged, hmerged, hrows⟩, rfl⟩, rfl⟩)
      | ok =>
        by_cases hm : f.uploadManifest = .failed
        · rw [hm]
          exact .inr (.inl ⟨first, _, ⟨⟨merged, hmerged, hrows⟩, rfl⟩, rfl⟩)
        · exact .inr (.inr ⟨first, _, by simpa using hlist, ⟨merged, hmerged, hrows⟩, rfl, hl1, hm⟩)

end

/-! ### What a sweep deletes -/

section
variable {f : ReapFaults} {s t : ObjectStore} {key : ObjectKey}

/-- `t` is `s` with some objects deleted. -/
def ObjectStore.Sub (t s : ObjectStore) : Prop := ∀ key, t.lookup key = s.lookup key ∨ t.lookup key = none

theorem ObjectStore.lookup_delete {key' : ObjectKey} :
    (s.delete key).lookup key' = if key' = key then none else s.lookup key' := by
  unfold ObjectStore.delete
  split
  · next heq => rw [heq, AList.lookup_erase]
  · next hne => rw [AList.lookup_erase_ne hne]

/-- The files are deleted one after the other up to the first failure, and nothing else is. -/
theorem lookup_deleteL0s (fails : ObjectKey → Bool) (keys : List ObjectKey) (key : ObjectKey) :
    (deleteL0s fails s keys).1.lookup key = s.lookup key ∨
      (deleteL0s fails s keys).1.lookup key = none ∧ key ∈ keys := by
  induction keys generalizing s with
  | nil => exact .inl rfl
  | cons k keys ih =>
    rw [deleteL0s]
    split
    · exact .inl rfl
    · dsimp only
      rcases ih (s := s.delete k) with hkept | ⟨hgone, hmem⟩
      · rw [hkept, ObjectStore.lookup_delete]
        split
        · next heq => exact .inr ⟨rfl, List.mem_cons.mpr (.inl heq)⟩
        · exact .inl rfl
      · exact .inr ⟨hgone, List.mem_cons_of_mem k hmem⟩

/-- The manifest `mk` is in the store with these lines, and its L1 file is there. -/
structure ObjectStore.Reapable (s : ObjectStore) (mk : ObjectKey) (lines : List ObjectKey) : Prop where
  manifest : s.lookup mk = some (.manifest lines)
  l1 : ∃ obj, s.lookup (parseManifest lines).1 = some obj

/-- An object that a sweep deletes is the manifest, or an L0 file it lists while its L1 file is there. -/
theorem lookup_reapManifest (result : ReapResult) (mk key : ObjectKey) :
    (reapManifest f s result mk).1.lookup key = s.lookup key ∨
      (reapManifest f s result mk).1.lookup key = none ∧
        ∃ lines, s.Reapable mk lines ∧ (key = mk ∨ key ∈ (parseManifest lines).2) := by
  rw [reapManifest]
  split
  · exact .inl rfl
  · split
    · exact .inl rfl
    · next lines hlines =>
      dsimp only
      split
      · exact .inl rfl
      · next hprobe =>
        have hreap : s.Reapable mk lines := by
          simp only [Bool.or_eq_true, not_or] at hprobe
          obtain ⟨⟨hne, hl1⟩, -⟩ := hprobe
          refine ⟨?_, Option.ne_none_iff_exists'.mp (by simpa using hl1)⟩
          unfold ObjectStore.readLines at hlines
          split at hlines
          · next lines' hmk _ =>
            cases hlines
            exact hmk
          · cases hlines
            exact absurd rfl hne
          · cases hlines
        have hdel := lookup_deleteL0s (s := s) (f.delete mk) (parseManifest lines).2 key
        split
        · rcases hdel with hkept | ⟨hgone, hmem⟩
          · exact .inl hkept
          · exact .inr ⟨hgone, lines, hreap, .inr hmem⟩
        · rw [ObjectStore.lookup_delete]
          split
          · next heq => exact .inr ⟨rfl, lines, hreap, .inl heq⟩
          · rcases hdel with hkept | ⟨hgone, hmem⟩
            · exact .inl hkept
            · exact .inr ⟨hgone, lines, hreap, .inr hmem⟩

/-- **What a sweep deletes**: manifests, and L0 files that a manifest lists whose L1 file is in the store. -/
theorem lookup_reapLoop {result : ReapResult} {mks : List ObjectKey} (hsub : t.Sub s) (key : ObjectKey) :
    (reapLoop f t result mks).1.lookup key = t.lookup key ∨
      (reapLoop f t result mks).1.lookup key = none ∧
        ∃ mk lines, s.Reapable mk lines ∧ (key = mk ∨ key ∈ (parseManifest lines).2) := by
  induction mks generalizing t result with
  | nil => exact .inl rfl
  | cons mk mks ih =>
    rw [reapLoop]
    split
    · exact .inl rfl
    · have hstep := lookup_reapManifest (f := f) (s := t) result mk
      have hlift : ∀ {lines}, t.Reapable mk lines → s.Reapable mk lines := by
        rintro lines ⟨hmk, obj, hl1⟩
        refine ⟨?_, obj, ?_⟩
        · exact ((hsub mk).resolve_right (by simp [hmk])).symm.trans hmk
        · exact ((hsub _).resolve_right (by simp [hl1])).symm.trans hl1
      have hsub' : (reapManifest f t result mk).1.Sub s := by
        intro k
        rcases hstep k with hkept | ⟨hgone, -⟩
        · rw [hkept]
          exact hsub k
        · exact .inr hgone
      rcases ih hsub' with hkept | hgone
      · dsimp only
        rw [hkept]
        rcases hstep key with hkept | ⟨hgone, lines, hreap, hkey⟩
        · exact .inl hkept
        · exact .inr ⟨hgone, mk, lines, hlift hreap, hkey⟩
      · exact .inr hgone

theorem reap_spec (key : ObjectKey) :
    (reap f s).1.lookup key = s.lookup key ∨
      (reap f s).1.lookup key = none ∧
        ∃ mk lines, s.Reapable mk lines ∧ (key = mk ∨ key ∈ (parseManifest lines).2) := by
  rw [reap]
  split
  · exact .inl rfl
  · exact lookup_reapLoop (fun _ => .inl rfl) key

theorem dir_of_mem_parseManifest {lines : List ObjectKey} (hkey : key ∈ (parseManifest lines).2) :
    Tier.l0.dir <+: key := by
  unfold parseManifest at hkey
  split at hkey
  · cases hkey
  · exact List.isPrefixOf_iff_prefix.mp (List.mem_filter.mp hkey).2

/-- A sweep leaves the Arrow files alone that are not in L0. -/
theorem lookup_reap_of_not_l0 {rows : List Row} (hkey : s.lookup key = some (.arrow rows))
    (hl0 : ¬ Tier.l0.dir <+: key) : (reap f s).1.lookup key = some (.arrow rows) := by
  rcases reap_spec (f := f) (s := s) key with hkept | ⟨-, mk, lines, hreap, rfl | hlisted⟩
  · exact hkept.trans hkey
  · rw [hreap.manifest] at hkey
    cases hkey
  · exact absurd (dir_of_mem_parseManifest hlisted) hl0

end

/-! ### Sound manifests -/

section
variable {s : ObjectStore}

/-- A manifest is sound if it names the L1 file of its own key, and that has every row of the L0 files it
lists. -/
structure ObjectStore.SoundManifest (s : ObjectStore) (mk : ObjectKey) (lines : List ObjectKey) : Prop where
  own : ∃ h m, mk = manifestKeyFor h m ∧ (parseManifest lines).1 = l1KeyFor h m
  covers : ∀ key ∈ (parseManifest lines).2, ∀ row ∈ s.rowsAt key, row ∈ s.rowsAt (parseManifest lines).1

def ObjectStore.SoundManifests (s : ObjectStore) : Prop :=
  ∀ mk lines, s.lookup mk = some (.manifest lines) → s.SoundManifest mk lines

theorem not_l0_of_l1KeyFor {h : Hash8} {m : Int64} : ¬ Tier.l0.dir <+: l1KeyFor h m := by
  rintro ⟨rest, hrest⟩
  simp [l1KeyFor, objectKey, tierPrefix, Tier.dir] at hrest

/-- **Where the manifests are sound, no sweep deletes the last copy of a row.** -/
theorem ObjectStore.SoundManifests.reap (hs : s.SoundManifests) (f : ReapFaults) {key : ObjectKey} {row : Row}
    (hrow : row ∈ s.rowsAt key) : ∃ key', row ∈ (Database.reap f s).1.rowsAt key' := by
  have hkey := ObjectStore.lookup_of_mem_rowsAt hrow
  rcases reap_spec (f := f) (s := s) key with hkept | ⟨-, mk, lines, hreap, rfl | hlisted⟩
  · exact ⟨key, by rwa [ObjectStore.rowsAt_of_lookup (hkept.trans hkey)]⟩
  · rw [hreap.manifest] at hkey
    cases hkey
  · obtain ⟨⟨h, m, -, hown⟩, hcovers⟩ := hs mk lines hreap.manifest
    have hl1 := hcovers key hlisted row hrow
    refine ⟨(parseManifest lines).1, ?_⟩
    rwa [ObjectStore.rowsAt_of_lookup (lookup_reap_of_not_l0 (ObjectStore.lookup_of_mem_rowsAt hl1) ?_)]
    rw [hown]
    exact not_l0_of_l1KeyFor

end

section
variable {R : Runtime} {c : CompactionConfig} {f : CompactionFaults} {s : ObjectStore} {entityID : EntityID}
  {h : Hash8} {first : Row} {rows : List Row}

variable {key : ObjectKey} {m : Int64}

theorem dir_isPrefix_tierPrefix {t : Tier} (hkey : tierPrefix t h <+: key) : t.dir <+: key :=
  (List.prefix_append _ _).trans hkey

theorem l1KeyFor_ne_manifestKeyFor {h h' : Hash8} {m' : Int64} : l1KeyFor h m ≠ manifestKeyFor h' m' := by
  intro heq
  cases (objectKey_injective heq).1

theorem parseManifest_compaction :
    parseManifest (buildManifest (l1KeyFor h m) (compactionKeys s h)) = (l1KeyFor h m, compactionKeys s h) := by
  refine parseManifest_buildManifest ?_ fun key hkey => ?_
  · simp [l1KeyFor, objectKey, tierPrefix, Tier.dir]
  · exact dir_isPrefix_tierPrefix (ObjectStore.mem_listObjects.mp (mem_compactionKeys.mp hkey)).2

theorem ne_of_dir {t : Tier} (hkey : Tier.l0.dir <+: key) (ht : t ≠ .l0) : key ≠ objectKey t h m := by
  rintro rfl
  obtain ⟨rest, hrest⟩ := hkey
  cases t with
  | l0 => exact ht rfl
  | l1 => simp [objectKey, tierPrefix, Tier.dir] at hrest
  | compaction => simp [objectKey, tierPrefix, Tier.dir] at hrest

/-- Without pruning the L1 file holds the entity's rows in the files that are read. -/
theorem Merges.mem_rows (hm : Merges R c f s entityID h first rows) (hprune : c.enableDominancePruning = false)
    {row : Row} : row ∈ rows ↔ belongs R entityID row = true ∧
      ∃ key ∈ s.listObjects (tierPrefix .l0 h), f.read key = .none ∧ row ∈ s.rowsAt key := by
  obtain ⟨merged, hmerged, hrows⟩ := hm.merged
  rw [CompactionConfig.prune, hprune, Bool.false_and, if_neg Bool.false_ne_true] at hrows
  rw [← hrows, (sortBy_perm _).mem_iff, mem_readEntityRows hmerged]
  simp only [mem_compactionKeys]

/-- The rows under the prefix are all of the entity, and each is in a file that is read. -/
def AllMerged (R : Runtime) (f : CompactionFaults) (s : ObjectStore) (entityID : EntityID) (h : Hash8) : Prop :=
  ∀ key ∈ s.listObjects (tierPrefix .l0 h), ∀ row ∈ s.rowsAt key, belongs R entityID row = true ∧
    ∃ key' ∈ s.listObjects (tierPrefix .l0 h), f.read key' = .none ∧ row ∈ s.rowsAt key'

instance : Decidable (AllMerged R f s entityID h) :=
  inferInstanceAs (Decidable (∀ key ∈ _, ∀ row ∈ _, _ ∧ ∃ key' ∈ _, _))

section
variable (hw : WritesManifest R c f s entityID h first rows)
include hw

theorem WritesManifest.lookup_of_ne (hl1 : key ≠ l1KeyFor h first.systemTime)
    (hm : key ≠ manifestKeyFor h first.systemTime) :
    (compaction R c f s entityID h).1.lookup key = s.lookup key := by
  rw [hw.store, AList.lookup_insert_ne hm, AList.lookup_insert_ne hl1]

theorem WritesManifest.lookup_l1 :
    (compaction R c f s entityID h).1.lookup (l1KeyFor h first.systemTime) = some (.arrow rows) := by
  rw [hw.store, AList.lookup_insert_ne l1KeyFor_ne_manifestKeyFor, AList.lookup_insert]

theorem WritesManifest.lookup_manifest :
    (compaction R c f s entityID h).1.lookup (manifestKeyFor h first.systemTime) =
      some (.manifest (buildManifest (l1KeyFor h first.systemTime) (compactionKeys s h))) := by
  rw [hw.store, AList.lookup_insert]

theorem WritesManifest.rowsAt_l0 (hkey : Tier.l0.dir <+: key) :
    (compaction R c f s entityID h).1.rowsAt key = s.rowsAt key := by
  unfold ObjectStore.rowsAt
  rw [hw.lookup_of_ne (ne_of_dir hkey (by decide)) (ne_of_dir hkey (by decide))]

variable (hprune : c.enableDominancePruning = false)
include hprune

theorem WritesManifest.soundManifest_iff :
    (compaction R c f s entityID h).1.SoundManifest (manifestKeyFor h first.systemTime)
      (buildManifest (l1KeyFor h first.systemTime) (compactionKeys s h)) ↔ AllMerged R f s entityID h := by
  have hl0 : ∀ {key}, key ∈ s.listObjects (tierPrefix .l0 h) → Tier.l0.dir <+: key := fun hkey =>
    dir_isPrefix_tierPrefix (ObjectStore.mem_listObjects.mp hkey).2
  constructor
  · intro hsound key hkey row hrow
    have hcovers := hsound.covers key (by rw [parseManifest_compaction]; exact mem_compactionKeys.mpr hkey) row
      (by rwa [hw.rowsAt_l0 (hl0 hkey)])
    rw [parseManifest_compaction, ObjectStore.rowsAt_of_lookup hw.lookup_l1, hw.merges.mem_rows hprune] at hcovers
    exact hcovers
  · intro hall
    refine ⟨⟨h, first.systemTime, rfl, by rw [parseManifest_compaction]⟩, ?_⟩
    rw [parseManifest_compaction]
    intro key hkey row hrow
    have hkey := mem_compactionKeys.mp hkey
    rw [hw.rowsAt_l0 (hl0 hkey)] at hrow
    rw [ObjectStore.rowsAt_of_lookup hw.lookup_l1, hw.merges.mem_rows hprune]
    exact hall key hkey row hrow

/-- A compaction that merges everything keeps the manifests sound. -/
theorem WritesManifest.soundManifests (hs : s.SoundManifests) (hall : AllMerged R f s entityID h) :
    (compaction R c f s entityID h).1.SoundManifests := by
  intro mk lines hmk
  by_cases heq : mk = manifestKeyFor h first.systemTime
  · subst heq
    rw [hw.lookup_manifest] at hmk
    cases hmk
    exact (hw.soundManifest_iff hprune).mpr hall
  · have hl1 : mk ≠ l1KeyFor h first.systemTime := by
      rintro rfl
      rw [hw.lookup_l1] at hmk
      cases hmk
    rw [hw.lookup_of_ne hl1 heq] at hmk
    obtain ⟨⟨h', m', hown, hnames⟩, hcovers⟩ := hs mk lines hmk
    refine ⟨⟨h', m', hown, hnames⟩, fun key hkey row hrow => ?_⟩
    rw [hw.rowsAt_l0 (dir_of_mem_parseManifest hkey)] at hrow
    have hother : (compaction R c f s entityID h).1.rowsAt (parseManifest lines).1 =
        s.rowsAt (parseManifest lines).1 := by
      unfold ObjectStore.rowsAt
      rw [hnames, hw.lookup_of_ne ?_ l1KeyFor_ne_manifestKeyFor]
      intro hsame
      obtain ⟨-, rfl, rfl⟩ := objectKey_injective hsame
      exact heq hown
    rw [hother]
    exact hcovers key hkey row hrow

end

/-- **The manifest of a compaction is sound iff every row under the prefix is merged**: it belongs to the
compacted entity and is in a file that is read.  Then no sweep of the reaper, whatever fails in it, deletes
the last copy of a row. -/
theorem manifest_is_sound_iff (hw : WritesManifest R c f s entityID h first rows)
    (hprune : c.enableDominancePruning = false) :
    ((∃ lines, (compaction R c f s entityID h).1.lookup (manifestKeyFor h first.systemTime) =
          some (.manifest lines) ∧
        (compaction R c f s entityID h).1.SoundManifest (manifestKeyFor h first.systemTime) lines) ↔
      AllMerged R f s entityID h) ∧
    (s.SoundManifests → AllMerged R f s entityID h → ∀ (rf : ReapFaults) (key : ObjectKey) (row : Row),
      row ∈ (compaction R c f s entityID h).1.rowsAt key →
        ∃ key', row ∈ (reap rf (compaction R c f s entityID h).1).1.rowsAt key') := by
  refine ⟨?_, fun hs hall rf key row hrow => (hw.soundManifests hprune hs hall).reap rf hrow⟩
  rw [← hw.soundManifest_iff hprune]
  constructor
  · rintro ⟨lines, hlines, hsound⟩
    rw [hw.lookup_manifest] at hlines
    cases hlines
    exact hsound
  · exact fun hsound => ⟨_, hw.lookup_manifest, hsound⟩

def sampleRow (systemTime validTimeStart validTimeEnd : Int64) : Row :=
  ⟨⟨[0x61], systemTime, validTimeStart, validTimeEnd, 0, 0, [], Runtime.sample.sha256 []⟩,
    entityHash16 .sample [0x61]⟩

def sampleHash : Hash8 := entityHash8 .sample [0x61]

def twoFiles : ObjectStore :=
  AList.insert (l0KeyFor sampleHash 1) (.arrow [sampleRow 1 0 10])
    (AList.insert (l0KeyFor sampleHash 2) (.arrow [sampleRow 2 0 10]) ∅)

theorem writesManifest_twoFiles :
    WritesManifest .sample defaultCompactionConfig .none twoFiles [0x61] sampleHash (sampleRow 1 0 10)
      [sampleRow 1 0 10, sampleRow 2 0 10] :=
  ⟨rfl, ⟨[sampleRow 1 0 10, sampleRow 2 0 10], by decide +kernel, by decide +kernel⟩, rfl, rfl, by decide⟩

/-- A compaction of the two files is sound. -/
theorem manifest_is_sound_on_two_files :
    ∃ lines, (compaction .sample defaultCompactionConfig .none twoFiles [0x61] sampleHash).1.lookup
        (manifestKeyFor sampleHash 1) = some (.manifest lines) ∧
      (compaction .sample defaultCompactionConfig .none twoFiles [0x61] sampleHash).1.SoundManifest
        (manifestKeyFor sampleHash 1) lines :=
  (manifest_is_sound_iff writesManifest_twoFiles rfl).1.mpr (by decide +kernel)

def secondUnreadable : CompactionFaults :=
  { CompactionFaults.none with read := fun key => if key = l0KeyFor sampleHash 2 then .failed else .none }

/-- Its row is then in the manifest but not in the L1 file, and the next sweep deletes it. -/
theorem unread_file_is_reaped :
    sampleRow 2 0 10 ∈ twoFiles.rowsAt (l0KeyFor sampleHash 2) ∧
      (compaction .sample defaultCompactionConfig secondUnreadable twoFiles [0x61] sampleHash).1.lookup
          (manifestKeyFor sampleHash 1) =
        some (.manifest [l1KeyFor sampleHash 1, l0KeyFor sampleHash 1, l0KeyFor sampleHash 2]) ∧
      ∀ key ∈ (reap .none (compaction .sample defaultCompactionConfig secondUnreadable twoFiles [0x61]
          sampleHash).1).1.keys,
        sampleRow 2 0 10 ∉ (reap .none (compaction .sample defaultCompactionConfig secondUnreadable twoFiles [0x61]
          sampleHash).1).1.rowsAt key := by
  decide +kernel

end

end Sovereign.Database

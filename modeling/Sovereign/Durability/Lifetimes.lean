import Sovereign.Durability.NodeInvariant

/-!
# The clock across restarts

A node lives, crashes, boots from what survived and lives on, any number of times.  The clock of a
recovered engine is put together from the replayed log, the last checkpoint and the image; it must not
be below anything that was recorded.

* `Covers` — an engine whose clock is at least a given value and at least every counter it holds; the
  joins and advances of recovery keep it, so the rebuilt engine covers where it started from
  (`rebuild_covers`).
* `le_lamportHigh_addAll` — the high-water mark of a replay is at least every counter in the log, but
  not the clock in a checkpoint; that one is only taken from the last checkpoint, and only if it is
  credible.
* `Node.Recorded` — over whole histories the clocks of the checkpoints ascend, so the last one is
  enough.

A checkpoint with a clock above `maxCredibleClockHigh` is not believed on replay, and then the recovered
clock is below what the log says (`incredible_clock_is_forgotten`).
-/

namespace Sovereign.Durability

open Lib Sync Wal

/-! ### What is recorded -/

def recordedCounters : LogEntry → List UInt64
  | .mutation m => [m.counter]
  | .clockAdvance v => [v]
  | .checkpoint c => [c.lamportHigh, c.clockHigh]

def clockHighs (es : List LogEntry) : List UInt64 :=
  es.filterMap fun e => e.checkpoint?.map WALCheckpoint.clockHigh

theorem mem_clockHighs {es : List LogEntry} {v : UInt64} :
    v ∈ clockHighs es ↔ ∃ c, LogEntry.checkpoint c ∈ es ∧ c.clockHigh = v := by
  simp only [clockHighs, List.mem_filterMap, Option.map_eq_some_iff]
  constructor
  · rintro ⟨e, he, c, hc, rfl⟩
    cases e with
    | mutation m => cases hc
    | clockAdvance w => cases hc
    | checkpoint c' =>
      cases hc
      exact ⟨c, he, rfl⟩
  · rintro ⟨c, hc, rfl⟩
    exact ⟨_, hc, c, rfl, rfl⟩

theorem le_raise (high c : UInt64) : high ≤ raise high c ∧ c ≤ raise high c := by
  rw [raise]
  split
  · next h => exact ⟨UInt64.le_of_lt h, UInt64.le_refl _⟩
  · next h => exact ⟨UInt64.le_refl _, UInt64.not_lt.mp h⟩

/-- One record raises the high-water mark to its counters, the clock of a checkpoint apart. -/
theorem le_lamportHigh_add (out : Replayed) (seq : UInt64) (e : LogEntry) :
    out.lamportHigh ≤ (out.add seq e).lamportHigh ∧
      ∀ c ∈ recordedCounters e, c ∈ clockHighs [e] ∨ c ≤ (out.add seq e).lamportHigh := by
  cases e with
  | mutation m =>
    obtain ⟨hold, hnew⟩ := le_raise out.lamportHigh m.counter
    exact ⟨hold, fun c hc => .inr (List.mem_singleton.mp hc ▸ hnew)⟩
  | clockAdvance v =>
    obtain ⟨hold, hnew⟩ := le_raise out.lamportHigh v
    exact ⟨hold, fun c hc => .inr (List.mem_singleton.mp hc ▸ hnew)⟩
  | checkpoint ckpt =>
    have hhigh : (out.add seq (.checkpoint ckpt)).lamportHigh = raise out.lamportHigh ckpt.lamportHigh := by
      simp only [Replayed.add, Replayed.addCheckpoint, Replayed.clampClock, WALCheckpoint.readBack]
      (repeat' split) <;> rfl
    obtain ⟨hold, hnew⟩ := le_raise out.lamportHigh ckpt.lamportHigh
    rw [hhigh]
    refine ⟨hold, fun c hc => ?_⟩
    rcases List.mem_cons.mp hc with rfl | hc
    · exact .inr hnew
    · exact .inl hc

/-- **The high-water mark of a replay** is at least every recorded counter, the clocks of checkpoints
apart. -/
theorem le_lamportHigh_addAll (out : Replayed) (n : ℕ) (es : List LogEntry) :
    out.lamportHigh ≤ (out.addAll n es).lamportHigh ∧
      ∀ e ∈ es, ∀ c ∈ recordedCounters e, c ∈ clockHighs es ∨ c ≤ (out.addAll n es).lamportHigh := by
  induction es generalizing out n with
  | nil => exact ⟨UInt64.le_refl _, by simp⟩
  | cons e es ih =>
    obtain ⟨hold, hall⟩ := ih ((out.count (UInt64.ofNat n)).add (UInt64.ofNat n) e) (n + 1)
    obtain ⟨hfirst, hrec⟩ := le_lamportHigh_add (out.count (UInt64.ofNat n)) (UInt64.ofNat n) e
    have hcons : clockHighs (e :: es) = clockHighs [e] ++ clockHighs es := by
      rw [clockHighs, clockHighs, clockHighs, ← List.filterMap_append]
      rfl
    rw [hcons]
    refine ⟨UInt64.le_trans hfirst hold, fun f hf c hc => ?_⟩
    rcases List.mem_cons.mp hf with rfl | hf
    · rcases hrec c hc with hclock | hle
      · exact .inl (List.mem_append_left _ hclock)
      · exact .inr (UInt64.le_trans hle hold)
    · exact (hall f hf c hc).imp_left fun hclock => List.mem_append_right _ hclock

/-! ### The rebuilt engine -/

section
variable {R : Runtime}

variable (R) in
/-- A well-formed engine whose clock is at least `low` and at least every counter it holds. -/
structure Covers (low : UInt64) (e : Engine) : Prop where
  wf : e.WF R
  low : low ≤ e.lamportCounter
  contents : ∀ x ∈ e.contents R, x.entry.dotCounter ≤ e.lamportCounter

namespace Covers

variable {low : UInt64} {e : Engine}

theorem advance (h : Covers R low e) (c : UInt64) : Covers R low (e.advanceLamportTo R c) := by
  have hge := (Engine.advanceLamportTo_ge (R := R) e c).1
  refine ⟨h.wf.advance c, UInt64.le_trans h.low hge, fun x hx => ?_⟩
  rw [Engine.contents_advance] at hx
  exact UInt64.le_trans (h.contents x hx) hge

theorem join (h : Covers R low e) (d : CRDTDelta) :
    Covers R low (e.join R d) ∧ ∀ x ∈ d.entries, x.entry.dotCounter ≤ (e.join R d).lamportCounter := by
  obtain ⟨hge, hall⟩ := Engine.observeAll_ge (R := R) e d.entries
  rw [← (Engine.join_clock e d).1] at hge hall
  refine ⟨⟨(Engine.join_spec h.wf d).1, UInt64.le_trans h.low hge, fun x hx => ?_⟩, hall⟩
  rcases Engine.contents_join_subset h.wf d hx with hold | hnew
  · exact UInt64.le_trans (h.contents x hold) hge
  · exact hall x hnew

theorem mono {low' : UInt64} (h : Covers R low e) (hle : low' ≤ e.lamportCounter) : Covers R low' e :=
  ⟨h.wf, hle, h.contents⟩

end Covers

/-! ### What joins and advances keep, recovery keeps -/

section
variable {Q : Engine → Prop} {S : Set SnapshotRecord} {nodeID : NodeID} {recs : List WALRecord} {rb rb' : Rebuild}

variable (Q S) in
/-- The engine has a property, and only records of `S` wait to be joined. -/
structure Keeping (rb : Rebuild) : Prop where
  engine : Q rb.engine
  chunk : ∀ x ∈ rb.chunk, x ∈ S

variable (hjoin : ∀ e d, (∀ x ∈ d.entries, x ∈ S) → Q e → Q (e.join R d))
include hjoin

theorem Keeping.flushChunk (h : Keeping Q S rb) : Keeping Q S (rb.flushChunk R) := by
  rw [Rebuild.flushChunk]
  split
  · exact h
  · exact ⟨hjoin _ _ h.chunk h.engine, by simp⟩

theorem Keeping.push (h : Keeping Q S rb) {x : SnapshotRecord} (hx : x ∈ S) : Keeping Q S (rb.push R x) := by
  have hadded : Keeping Q S { rb with chunk := rb.chunk ++ [x] } := by
    refine ⟨h.engine, fun y hy => ?_⟩
    rcases List.mem_append.mp hy with hy | hy
    · exact h.chunk y hy
    · rwa [List.mem_singleton.mp hy]
  simp only [Rebuild.push]
  split
  · exact hadded.flushChunk hjoin
  · exact hadded

theorem repairHoles_keeps {cut : UInt64} {inImage : List CausalDot}
    (hrecs : ∀ rec ∈ recs, ∀ m ∈ recordMutation? rec, restored nodeID m ∈ S) (h : Keeping Q S rb)
    (hok : Rebuild.repairHoles R nodeID cut inImage recs rb = .ok rb') : Keeping Q S rb' := by
  induction recs generalizing rb with
  | nil =>
    cases hok
    exact h.flushChunk hjoin
  | cons rec recs ih =>
    obtain ⟨hrec, hrest⟩ := List.forall_mem_cons.mp hrecs
    rw [Rebuild.repairHoles] at hok
    split at hok
    · exact ih hrest h hok
    next m hm =>
    split at hok
    · exact ih hrest h hok
    split at hok
    · exact ih hrest h hok
    split at hok
    · cases hok
    · have hpushed := h.push hjoin (hrec m hm)
      refine ih hrest ?_ hok
      exact ⟨hpushed.engine, hpushed.chunk⟩

variable (hadvance : ∀ e v, Q e → Q (e.advanceLamportTo R v))
include hadvance

theorem replayTail_keeps {cut : Option UInt64}
    (hrecs : ∀ rec ∈ recs, ∀ m ∈ recordMutation? rec, restored nodeID m ∈ S) (h : Keeping Q S rb)
    (hok : Rebuild.replayTail R nodeID cut recs rb = .ok rb') : Keeping Q S rb' := by
  induction recs generalizing rb with
  | nil =>
    cases hok
    exact h.flushChunk hjoin
  | cons rec recs ih =>
    obtain ⟨hrec, hrest⟩ := List.forall_mem_cons.mp hrecs
    rw [Rebuild.replayTail] at hok
    split at hok
    · exact ih hrest h hok
    · split at hok
      · cases hok
      next rb₁ hstep =>
      refine ih hrest ?_ hok
      cases rec with
      | clockAdvance v seq =>
        cases hstep
        exact ⟨hadvance _ v h.engine, h.chunk⟩
      | mutation recType m seq =>
        rw [Rebuild.replayRecord] at hstep
        split at hstep
        · cases hstep
        · cases hstep
          have hcounted : Keeping Q S { rb with legacyRecords := rb.legacyRecords + if m.legacy then 1 else 0 } :=
            ⟨h.engine, h.chunk⟩
          have hpushed := hcounted.push hjoin (hrec m rfl)
          exact ⟨hpushed.engine, hpushed.chunk⟩

end

theorem loadImage_eq {rep : Replayed} {e e' : Engine} {img : SnapshotImage}
    (h : loadImage R rep e img = .ok e') : e' = e.join R (snapshotDelta img.records) := by
  simp only [loadImage] at h
  split_ifs at h <;> cases h <;> rfl

variable {nodeID : NodeID} {seeds : BootSeeds} {rep : Replayed} {image : Option SnapshotImage} {rb : Rebuild}
  {S : Set SnapshotRecord}

section
variable (h : rebuild R rep seeds nodeID image = .ok rb)
include h

/-- **The rebuilt engine** has what the engine it started from has, and joins and advances keep. -/
theorem rebuild_keeps {Q : Engine → Prop}
    (hjoin : ∀ e d, (∀ x ∈ d.entries, x ∈ S) → Q e → Q (e.join R d))
    (hadvance : ∀ e v, Q e → Q (e.advanceLamportTo R v))
    (hlog : ∀ rec ∈ rep.ordered, ∀ m ∈ recordMutation? rec, restored nodeID m ∈ S)
    (hfresh : image = none → Q (newEngineAt seeds nodeID (rebuiltInitial rep)))
    (himage : ∀ img ∈ image, Q ((newEngineAt seeds nodeID (rebuiltInitial rep)).join R (snapshotDelta img.records))) :
    Q rb.engine := by
  cases image with
  | none =>
    simp only [rebuild] at h
    split at h
    · cases h
    next rb₁ htail =>
    cases h
    exact hadvance _ _ (replayTail_keeps hjoin hadvance hlog ⟨hfresh rfl, by simp⟩ htail).engine
  | some img =>
    simp only [rebuild] at h
    split at h
    · cases h
    next e hload =>
    split at h
    · cases h
    next rb₁ htail =>
    split at h
    · cases h
    next rb₂ hholes =>
    cases h
    have hloaded : Keeping Q S ⟨e, [], 0, 0, 0⟩ := ⟨loadImage_eq hload ▸ himage img rfl, by simp⟩
    have htailed := replayTail_keeps hjoin hadvance hlog hloaded htail
    exact hadvance _ _ (repairHoles_keeps hjoin hlog htailed hholes).engine

/-- **The rebuilt engine** has a clock of at least the start value, every counter it holds and every
counter of the image it started from. -/
theorem rebuild_covers :
    Covers R (rebuiltInitial rep) rb.engine ∧
      ∀ img ∈ image, ∀ x ∈ img.records, x.entry.dotCounter ≤ rb.engine.lamportCounter := by
  have hfresh : Covers R (rebuiltInitial rep) (newEngineAt seeds nodeID (rebuiltInitial rep)) := by
    refine ⟨Engine.wf_newEngine (by decide) _ _ _ _, UInt64.le_refl _, fun x hx => ?_⟩
    rw [newEngineAt, Engine.contents_newEngine (by decide)] at hx
    exact hx.elim
  -- any lower bound is kept, so also the counter of any record of the image
  have hkeep := fun low => rebuild_keeps (Q := Covers R low) (S := Set.univ) h (fun _ d _ he => (he.join d).1)
    (fun _ v he => he.advance v) (fun _ _ _ _ => trivial)
  refine ⟨hkeep _ (fun _ => hfresh) fun img _ => (hfresh.join _).1, fun img himg x hx => ?_⟩
  obtain ⟨hjoin, hrecords⟩ := hfresh.join (snapshotDelta img.records)
  refine (hkeep _ (fun hnone => ?_) fun img' himg' => ?_).low
  · cases hnone.symm.trans himg
  · cases himg.symm.trans himg'
    exact hjoin.mono (hrecords x hx)

/-! ### What a recovered engine can hold -/

/-- **The rebuilt engine** holds nothing but records of the image and restored mutations of the log. -/
theorem rebuild_contents_subset
    (himage : ∀ img ∈ image, ∀ x ∈ img.records, x ∈ S)
    (hlog : ∀ rec ∈ rep.ordered, ∀ m ∈ recordMutation? rec, restored nodeID m ∈ S) :
    rb.engine.contents R ⊆ S := by
  have hfresh : (newEngineAt seeds nodeID (rebuiltInitial rep)).WF R ∧
      (newEngineAt seeds nodeID (rebuiltInitial rep)).contents R ⊆ S := by
    refine ⟨Engine.wf_newEngine (by decide) _ _ _ _, ?_⟩
    rw [newEngineAt, Engine.contents_newEngine (by decide)]
    exact Set.empty_subset S
  have hjoin : ∀ (e : Engine) (d : CRDTDelta), (∀ x ∈ d.entries, x ∈ S) → e.WF R ∧ e.contents R ⊆ S →
      (e.join R d).WF R ∧ (e.join R d).contents R ⊆ S := fun e d hd he =>
    ⟨(Engine.join_spec he.1 d).1, (Engine.contents_join_subset he.1 d).trans (Set.union_subset he.2 hd)⟩
  refine (rebuild_keeps (Q := fun e => e.WF R ∧ e.contents R ⊆ S) h hjoin (fun e v he => ?_) hlog (fun _ => hfresh)
    fun img himg => hjoin _ _ (himage img himg) hfresh).2
  rw [Engine.contents_advance]
  exact ⟨he.1.advance v, he.2⟩

theorem rebuild_localNodeID : rb.engine.localNodeID = nodeID :=
  rebuild_keeps (Q := fun e => e.localNodeID = nodeID) (S := Set.univ) h
    (fun e d _ he => (Engine.join_clock e d).2.trans he) (fun e v he => by simpa using he) (fun _ _ _ _ => trivial)
    (fun _ => rfl) fun _ _ => (Engine.join_clock _ _).2.trans rfl

end

/-- A recovery that succeeded has replayed the file, rebuilt the engine and reopened the log. -/
theorem recover_ok {file : Bytes} {store : Option SnapshotStore}
    {out : Recovered} (h : recoverEngineWithSnapshot R seeds nodeID (some file) store = .ok out) :
    replayWAL file = .ok out.rep ∧ openWAL file = .ok out.wal ∧
      ∃ rb, rebuild R out.rep seeds nodeID (usableImage out.rep nodeID store).toOption = .ok rb ∧
        out.engine = rb.engine := by
  rw [recoverEngineWithSnapshot] at h
  cases hrep : replayWAL file with
  | error err => simp [hrep] at h
  | ok rep =>
  -- whichever image is used, the rest is the same
  cases husable : usableImage rep nodeID store with
  | error reason =>
    simp only [hrep, husable] at h
    split at h
    · cases h
    next rb hrb =>
    split at h
    · cases h
    next wal hwal =>
    split at h
    · cases h
    · cases h
      exact ⟨rfl, hwal, rb, by rw [husable]; exact hrb, rfl⟩
  | ok img =>
    simp only [hrep, husable] at h
    split at h
    · cases h
    next rb hrb =>
    split at h
    · cases h
    next wal hwal =>
    split at h
    · cases h
    · cases h
      exact ⟨rfl, hwal, rb, by rw [husable]; exact hrb, rfl⟩

end

/-! ### The last checkpoint -/

theorem clockHighs_cons (e : LogEntry) (es : List LogEntry) :
    clockHighs (e :: es) = (e.checkpoint?.map WALCheckpoint.clockHigh).toList ++ clockHighs es := by
  rw [clockHighs, List.filterMap_cons]
  cases e.checkpoint? <;> rfl

theorem clockHighs_append (es fs : List LogEntry) :
    clockHighs (es ++ fs) = clockHighs es ++ clockHighs fs := List.filterMap_append

theorem clockHighs_mutations (ms : List WALMutation) : clockHighs (ms.map .mutation) = [] := by
  rw [clockHighs, List.filterMap_map]
  exact List.filterMap_eq_nil_iff.mpr fun m _ => rfl

theorem clockHighs_le_last {es : List LogEntry} (hsorted : (clockHighs es).Pairwise (· ≤ ·)) (n : ℕ) :
    match lastCheckpoint n es with
    | some (_, c) => c.clockHigh ∈ clockHighs es ∧ ∀ v ∈ clockHighs es, v ≤ c.clockHigh
    | none => clockHighs es = [] := by
  induction es generalizing n with
  | nil => rfl
  | cons e es ih =>
    rw [clockHighs_cons] at hsorted ⊢
    have hrest := ih (List.pairwise_append.mp hsorted).2.1 (n + 1)
    rw [lastCheckpoint]
    cases hlast : lastCheckpoint (n + 1) es with
    | some r =>
      rw [hlast] at hrest
      obtain ⟨hmem, hall⟩ := hrest
      refine ⟨List.mem_append_right _ hmem, fun v hv => ?_⟩
      rcases List.mem_append.mp hv with hv | hv
      · exact (List.pairwise_append.mp hsorted).2.2 v hv _ hmem
      · exact hall v hv
    | none =>
      rw [hlast] at hrest
      simp only at hrest
      rw [hrest, List.append_nil]
      cases he : e.checkpoint? with
      | none => rfl
      | some c =>
        refine ⟨List.mem_singleton_self _, fun v hv => ?_⟩
        rw [List.mem_singleton.mp hv]
        exact UInt64.le_refl _

/-! ### Histories -/

/-- The clock a checkpoint in flight has read. -/
def Runner.clock? : Runner → Option UInt64
  | .captured _ clockHigh _ => some clockHigh
  | _ => none

/-- The mutations a writer has inserted and not logged. -/
def Writer.inserted : Writer → List WALMutation
  | .inserting done _ => done
  | _ => []

/-- An event in the life of a node: a step of one of its calls, the start of a `Join` of any delta, a
clock-advance record (`RecordClockAdvance`), or a crash that cuts the log and the boot that follows. -/
inductive LifeEvent where
  | step (a : Action)
  | join (j : ℕ) (delta : CRDTDelta)
  | recordAdvance (v : UInt64)
  | reboot (cut : ℕ) (seeds : BootSeeds)

namespace Node

def store (s : Node) : Option SnapshotStore := if s.snapshotter then some (localFS s.objects) else none

variable (R : Runtime)

/-- Boot from what a crash has left of the log. -/
def recover (s : Node) (cut : ℕ) (seeds : BootSeeds) : Except RecoveryError Recovered :=
  recoverEngineWithSnapshot R seeds s.engine.localNodeID (some (s.wal.file.take cut)) s.store

def restarted (s : Node) (out : Recovered) : Node where
  engine := out.engine
  wal := out.wal
  synced := out.wal.file.length
  snapshotter := s.snapshotter
  objects := s.objects
  writers := fun _ => .idle
  joiners := fun _ => .idle
  runner := .idle

/-- One event.  The clock a record is taken from was read before, so it is any value up to the
clock. -/
def live (s : Node) : LifeEvent → Option (Node × List WALMutation)
  | .step a => s.step R a
  | .join j delta =>
    match s.joiners j with
    | .idle =>
      some ({ s with
        joiners := Function.update s.joiners j
          (.running (delta.entries.map fun x => x.entry.dotCounter)
            (shardBatches R s.engine delta)) }, [])
    | .running _ _ => none
  | .recordAdvance v =>
    if v ≤ s.engine.lamportCounter then
      some ({ s with wal := (s.wal.write (.clockAdvance v) .ok).1 }, [])
    else none
  | .reboot cut seeds =>
    if s.synced ≤ cut then
      match s.recover R cut seeds with
      | .error _ => none
      | .ok out => some (s.restarted out, [])
    else none

/-- What a history keeps to: the clock does not wrap, a record fits the limit of replay, and a
checkpoint carries a clock that replay believes. -/
def Credible (s : Node) : LifeEvent → Prop
  | .step (.mint _) => s.engine.lamportCounter ≠ 0xFFFFFFFFFFFFFFFF
  | .step (.append i) =>
    match s.writers i with
    | .inserting done _ => ∀ m ∈ done, (LogEntry.mutation m).Fits
    | _ => True
  | .step .appendCheckpoint =>
    match s.runner with
    | .captured _ clockHigh _ => clockHigh ≤ maxCredibleClockHigh
    | _ => True
  | _ => True

theorem credible_append_iff (s : Node) (i : ℕ) :
    (∀ m ∈ (s.writers i).inserted, (LogEntry.mutation m).Fits) ↔ s.Credible (.step (.append i)) := by
  cases hw : s.writers i <;> simp [Credible, Writer.inserted, hw]

theorem credible_appendCheckpoint_iff (s : Node) :
    s.runner.clock?.all (· ≤ maxCredibleClockHigh) = true ↔ s.Credible (.step .appendCheckpoint) := by
  cases hr : s.runner <;> simp [Credible, Runner.clock?, hr]

instance (s : Node) : (ev : LifeEvent) → Decidable (s.Credible ev)
  | .step (.mint _) => inferInstanceAs (Decidable (s.engine.lamportCounter ≠ 0xFFFFFFFFFFFFFFFF))
  | .step (.append i) => decidable_of_iff _ (s.credible_append_iff i)
  | .step .appendCheckpoint => decidable_of_iff _ s.credible_appendCheckpoint_iff
  | .step (.put ..) | .step (.publish _) | .step (.flush _) | .step (.join ..) | .step (.observe _)
  | .step (.merge _) | .step .cut | .step .capture | .step .readClock | .step .flushCheckpoint
  | .step .writeImage | .join .. | .recordAdvance _ | .reboot .. => inferInstanceAs (Decidable True)

end Node

/-- The log of a node over its lives: whole records that fit, and checkpoints with credible, ascending
clocks that the engine's clock has reached. -/
structure Node.Recorded (s : Node) (es : List LogEntry) : Prop where
  holds : s.wal.Holds es []
  synced : 8 ≤ s.synced
  fits : ∀ e ∈ es, e.Fits
  armed : ∀ c, LogEntry.checkpoint c ∈ es → c.hasCutSeq = true
  credible : ∀ v ∈ clockHighs es, v ≤ maxCredibleClockHigh
  ascending : (clockHighs es).Pairwise (· ≤ ·)
  clock : ∀ v ∈ clockHighs es, v ≤ s.engine.lamportCounter
  captured : ∀ v ∈ s.runner.clock?, v ≤ s.engine.lamportCounter ∧ ∀ w ∈ clockHighs es, w ≤ v

namespace Node.Recorded

variable {R : Runtime} {s : Node} {es : List LogEntry} {seeds : BootSeeds}

theorem fresh (r : Replica) (snapshotter : Bool) : (Node.fresh r snapshotter).Recorded [] where
  holds := WAL.holds_new
  synced := (by decide : 8 ≤ fileHeader.length)
  fits := by simp
  armed := by simp
  credible := by simp [clockHighs]
  ascending := .nil
  clock := by simp [clockHighs]
  captured := by simp [Node.fresh, Runner.clock?]

variable {s' : Node} {out : List WALMutation} {a : Action}

theorem keep (h : s.Recorded es) (hwal : s'.wal = s.wal) (hsynced : s.synced ≤ s'.synced)
    (hclock : s.engine.lamportCounter ≤ s'.engine.lamportCounter)
    (hrunner : s'.runner.clock? = s.runner.clock?) : s'.Recorded es where
  holds := hwal ▸ h.holds
  synced := le_trans h.synced hsynced
  fits := h.fits
  armed := h.armed
  credible := h.credible
  ascending := h.ascending
  clock := fun v hv => UInt64.le_trans (h.clock v hv) hclock
  captured := fun v hv => by
    rw [hrunner] at hv
    exact ⟨UInt64.le_trans (h.captured v hv).1 hclock, (h.captured v hv).2⟩

theorem withRunner (h : s.Recorded es) {w : Runner} (hw : w.clock? = none) {upTo : ℕ}
    {objects : Objects} (hsynced : s.synced ≤ upTo) :
    ({ s with runner := w, synced := upTo, objects := objects } : Node).Recorded es :=
  ⟨h.holds, le_trans h.synced hsynced, h.fits, h.armed, h.credible, h.ascending, h.clock,
    fun v hv => by simp [hw] at hv⟩

theorem append (h : s.Recorded es) {wal : WAL} {fs : List LogEntry} (hholds : wal.Holds (es ++ fs) [])
    (hfits : ∀ e ∈ fs, e.Fits) (hnone : clockHighs fs = []) (writers : ℕ → Writer) :
    ({ s with wal := wal, writers := writers } : Node).Recorded (es ++ fs) := by
  have hclocks : clockHighs (es ++ fs) = clockHighs es := by rw [clockHighs_append, hnone, List.append_nil]
  have harmed : ∀ c, LogEntry.checkpoint c ∈ es ++ fs → c.hasCutSeq = true := by
    intro c hc
    rcases List.mem_append.mp hc with hc | hc
    · exact h.armed c hc
    · have hmem : c.clockHigh ∈ clockHighs fs := mem_clockHighs.mpr ⟨c, hc, rfl⟩
      rw [hnone] at hmem
      cases hmem
  exact ⟨hholds, h.synced, fun e he => (List.mem_append.mp he).elim (h.fits e) (hfits e), harmed,
    hclocks ▸ h.credible, hclocks ▸ h.ascending, hclocks ▸ h.clock, hclocks ▸ h.captured⟩

theorem stepWriter (h : s.Recorded es) {i : ℕ} (hcred : s.Credible (.step a)) (ha : ∀ k, a = .append k → k = i)
    (hstep : s.stepWriter R i a (s.writers i) = some (s', out)) : ∃ es', s'.Recorded es' := by
  generalize hw : s.writers i = w at hstep
  rw [Node.stepWriter.eq_def] at hstep
  split at hstep
  · cases hstep
    exact ⟨es, h.keep rfl le_rfl (UInt64.le_refl _) rfl⟩
  · cases hstep
    have hne : s.engine.lamportCounter ≠ 0xFFFFFFFFFFFFFFFF := hcred
    refine ⟨es, h.keep rfl le_rfl ?_ rfl⟩
    show s.engine.lamportCounter ≤ s.engine.lamportCounter + 1
    grind
  · cases hstep
    exact ⟨es, h.keep rfl le_rfl (UInt64.le_refl _) rfl⟩
  · next k done =>
    obtain rfl := ha k rfl
    have hfits : ∀ m ∈ done, (LogEntry.mutation m).Fits := by
      simpa only [Node.Credible, hw] using hcred
    obtain ⟨written, hpre, hholds, -, -⟩ := appendMutationsLoop_honest h.holds 0 done
    have hgrown : ∀ writers, ({ s with
        wal := (s.wal.appendMutationsLoop 0 done fun _ => .ok).1, writers := writers } : Node).Recorded
          (es ++ written.map .mutation) := fun writers => by
      refine h.append hholds (fun e he => ?_) (clockHighs_mutations written) _
      obtain ⟨m, hmem, rfl⟩ := List.mem_map.mp he
      exact hfits m (hpre.subset hmem)
    split at hstep
    · next wal err hloop =>
      cases hstep
      rw [hloop] at hgrown
      exact ⟨_, hgrown _⟩
    · next wal hloop =>
      cases hstep
      rw [hloop] at hgrown
      exact ⟨_, hgrown _⟩
  · cases hstep
    exact ⟨es, h.keep rfl (le_max_left _ _) (UInt64.le_refl _) rfl⟩
  · cases hstep

theorem stepJoiner (h : s.Recorded es) {j : ℕ}
    (hstep : s.stepJoiner R j a (s.joiners j) = some (s', out)) : s'.Recorded es := by
  rw [Node.stepJoiner.eq_def] at hstep
  split at hstep
  · split at hstep
    · cases hstep
      exact h.keep rfl le_rfl (UInt64.le_refl _) rfl
    · cases hstep
  · next c counters todo heq =>
    cases hstep
    exact h.keep rfl le_rfl (Engine.advanceLamportTo_ge s.engine c).1 rfl
  · cases hstep
    exact h.keep rfl le_rfl (UInt64.le_refl _) rfl
  · cases hstep
    exact h.keep rfl le_rfl (UInt64.le_refl _) rfl
  · cases hstep

theorem checkpoint (h : s.Recorded es) {cutSeq clockHigh : UInt64}
    {pairs : List (EntityID × List CRDTEntry)} (hw : s.runner = .captured cutSeq clockHigh pairs)
    (hcred : clockHigh ≤ maxCredibleClockHigh) {w : Runner} (hnone : w.clock? = none) :
    ({ s with
      wal := ⟨s.wal.file ++ (LogEntry.checkpoint (checkpointOf R s.engine.localNodeID pairs cutSeq clockHigh
        s.snapshotter)).encode s.wal.nextSeq, s.wal.nextSeq + 1⟩
      runner := w } : Node).Recorded (es ++ [.checkpoint (checkpointOf R s.engine.localNodeID pairs cutSeq
        clockHigh s.snapshotter)]) := by
  set ckpt := checkpointOf R s.engine.localNodeID pairs cutSeq clockHigh s.snapshotter with hckpt
  obtain ⟨hle, hall⟩ := h.captured clockHigh (by rw [hw]; rfl)
  have hclocks : clockHighs (es ++ [.checkpoint ckpt]) = clockHighs es ++ [clockHigh] := by
    rw [clockHighs_append]
    rfl
  have hcases : ∀ {v}, v ∈ clockHighs (es ++ [.checkpoint ckpt]) → v ∈ clockHighs es ∨ v = clockHigh := by
    intro v hv
    rw [hclocks] at hv
    exact (List.mem_append.mp hv).imp_right List.mem_singleton.mp
  refine ⟨h.holds.write_ok _, h.synced, fun e he => ?_, fun c hc => ?_, fun v hv => ?_, ?_, fun v hv => ?_,
    fun v hv => by simp [hnone] at hv⟩
  · rcases List.mem_append.mp he with he | he
    · exact h.fits e he
    · rw [List.mem_singleton.mp he]
      exact LogEntry.fits_of_not_mutation (by simp)
  · rcases List.mem_append.mp hc with hc | hc
    · exact h.armed c hc
    · cases List.mem_singleton.mp hc
      rfl
  · rcases hcases hv with hv | rfl
    · exact h.credible v hv
    · exact hcred
  · rw [hclocks]
    exact List.pairwise_append.mpr ⟨h.ascending, List.pairwise_singleton _ _, fun v hv w hw' =>
      List.mem_singleton.mp hw' ▸ hall v hv⟩
  · rcases hcases hv with hv | rfl
    · exact h.clock v hv
    · exact hle

theorem stepRunner (h : s.Recorded es) (hcred : s.Credible (.step a)) (hstep : s.stepRunner R a s.runner = some (s', out)) :
    ∃ es', s'.Recorded es' := by
  generalize hw : s.runner = w at hstep
  rw [Node.stepRunner.eq_def] at hstep
  split at hstep
  · cases hstep
    exact ⟨es, h.withRunner rfl le_rfl⟩
  · split at hstep
    · cases hstep
    · cases hstep
      exact ⟨es, h.withRunner rfl le_rfl⟩
  · split at hstep
    · cases hstep
      refine ⟨es, h.holds, h.synced, h.fits, h.armed, h.credible, h.ascending, h.clock, fun v hv => ?_⟩
      cases hv
      exact ⟨UInt64.le_refl _, h.clock⟩
    · cases hstep
  · cases hstep
    have hle := hcred
    simp only [Node.Credible, hw] at hle
    exact ⟨_, h.checkpoint hw hle rfl⟩
  · cases hstep
    refine ⟨es, h.withRunner ?_ (le_max_left _ _)⟩
    split <;> rfl
  · split at hstep
    · cases hstep
      exact ⟨es, h.withRunner rfl le_rfl⟩
    · cases hstep
      exact ⟨es, h.withRunner rfl le_rfl⟩
  · cases hstep

/-- What survives a crash is again a log of this kind, and the recovered clock is at least everything
in it. -/
theorem recovered (h : s.Recorded es) {cut : ℕ} (hcut : s.synced ≤ cut)
    {out : Recovered} (hrec : s.recover R cut seeds = .ok out) : ∃ es', es' <+: es ∧ out.wal.Holds es' [] ∧
      (∀ e ∈ es', ∀ c ∈ recordedCounters e, c ≤ out.engine.lamportCounter) ∧
      (out.rep.hasCheckpoint = true → out.rep.finalCheckpt.lamportHigh ≤ out.engine.lamportCounter) := by
  have hbehind : 8 ≤ cut := le_trans h.synced hcut
  obtain ⟨hreplay, hopen, rb, hrebuild, hengine⟩ := recover_ok hrec
  obtain ⟨w, hw, hholds⟩ := openWAL_take h.holds h.fits hbehind
  cases hw.symm.trans hopen
  have hrep := Except.ok.inj ((replayWAL_take h.holds h.fits hbehind).symm.trans hreplay)
  set es' := surviving 0 (cut - 8) es
  have hpre : es' <+: es := surviving_initial 0 (cut - 8) es
  -- the clock is at least the start value, and the start value at least the two marks of the replay
  have hstart : rebuiltInitial out.rep ≤ out.engine.lamportCounter := hengine ▸ (rebuild_covers hrebuild).1.low
  have hmarks : out.rep.lamportHigh ≤ rebuiltInitial out.rep ∧
      (out.rep.hasCheckpoint = true → out.rep.finalCheckpt.clockHigh ≤ rebuiltInitial out.rep) := by
    rw [rebuiltInitial]
    split
    · next hlt => exact ⟨UInt64.le_of_lt hlt.2, fun _ => UInt64.le_refl _⟩
    · next hlt => exact ⟨UInt64.le_refl _, fun hck => UInt64.not_lt.mp fun hgt => hlt ⟨hck, hgt⟩⟩
  have hlast := Replayed.addAll_checkpoint .empty 0 es'
  have hclocks : ∀ v ∈ clockHighs es', v ≤ out.engine.lamportCounter := by
    have hsub : (clockHighs es').Sublist (clockHighs es) := hpre.sublist.filterMap _
    have hle := clockHighs_le_last (h.ascending.sublist hsub) 0
    cases hc : lastCheckpoint 0 es' with
    | none =>
      rw [hc] at hle
      simp only at hle
      rw [hle]
      simp
    | some r =>
      obtain ⟨i, c⟩ := r
      rw [hc] at hle hlast
      obtain ⟨hmem, hall⟩ := hle
      obtain ⟨hck, -, clock, hfinal, hclock⟩ := hlast
      have hcmem : LogEntry.checkpoint c ∈ es' := List.mem_of_getElem? (lastCheckpoint_mem hc).2
      have hread : c.readBack.clockHigh = c.clockHigh := by
        rw [WALCheckpoint.readBack, if_pos (h.armed c (hpre.subset hcmem))]
      have hbelieved : clock = c.clockHigh := by
        rw [hread] at hclock
        exact hclock (h.credible _ (mem_clockHighs.mpr ⟨c, hpre.subset hcmem, rfl⟩))
      have hfinal' : out.rep.finalCheckpt.clockHigh = c.clockHigh := by
        rw [← hrep]
        show (Replayed.empty.addAll 0 es').finalCheckpt.clockHigh = c.clockHigh
        rw [hfinal, hbelieved]
      intro v hv
      have hck' : out.rep.hasCheckpoint = true := by
        rw [← hrep]
        exact hck
      exact UInt64.le_trans (hall v hv) (UInt64.le_trans (hfinal' ▸ hmarks.2 hck') hstart)
  have hhigh : ∀ c, c ≤ (Replayed.empty.addAll 0 es').lamportHigh → c ≤ out.engine.lamportCounter := by
    intro c hc
    have hsame : (Replayed.empty.addAll 0 es').lamportHigh = out.rep.lamportHigh := by rw [← hrep]
    exact UInt64.le_trans (hsame ▸ hc) (UInt64.le_trans hmarks.1 hstart)
  refine ⟨es', hpre, hholds, fun e he c hc => ?_, fun hck => ?_⟩
  · rcases (le_lamportHigh_addAll .empty 0 es').2 e he c hc with hclock | hle
    · exact hclocks c hclock
    · exact hhigh c hle
  · -- the watermark of the last checkpoint is one of the recorded counters
    cases hc : lastCheckpoint 0 es' with
    | none =>
      rw [hc] at hlast
      rw [← hrep] at hck
      exact absurd (hlast.1.symm.trans hck) (by decide)
    | some r =>
      obtain ⟨i, c⟩ := r
      rw [hc] at hlast
      obtain ⟨-, -, clock, hfinal, -⟩ := hlast
      have hcmem : LogEntry.checkpoint c ∈ es' := List.mem_of_getElem? (lastCheckpoint_mem hc).2
      have hwater : out.rep.finalCheckpt.lamportHigh = c.lamportHigh := by
        rw [← hrep]
        show (Replayed.empty.addAll 0 es').finalCheckpt.lamportHigh = c.lamportHigh
        rw [hfinal, WALCheckpoint.readBack]
        split <;> rfl
      rw [hwater]
      rcases (le_lamportHigh_addAll .empty 0 es').2 _ hcmem c.lamportHigh List.mem_cons_self with h' | h'
      · exact hclocks _ h'
      · exact hhigh _ h'

theorem reboot (h : s.Recorded es) {cut : ℕ} (hcut : s.synced ≤ cut)
    {out : Recovered} (hrec : s.recover R cut seeds = .ok out) : ∃ es', (s.restarted out).Recorded es' := by
  obtain ⟨es', hpre, hholds, hall, -⟩ := h.recovered hcut hrec
  have hsub : (clockHighs es').Sublist (clockHighs es) := hpre.sublist.filterMap _
  have hlen : 8 ≤ (s.restarted out).synced := by
    show 8 ≤ out.wal.file.length
    rw [hholds.file, List.length_append]
    exact le_trans (by decide : 8 ≤ fileHeader.length) (Nat.le_add_right _ _)
  refine ⟨es', hholds, hlen, fun e he => h.fits e (hpre.subset he), fun c hc => h.armed c (hpre.subset hc),
    fun v hv => h.credible v (hsub.subset hv), h.ascending.sublist hsub, fun v hv => ?_,
    fun v hv => by cases hv⟩
  obtain ⟨c, hc, rfl⟩ := mem_clockHighs.mp hv
  exact hall _ hc c.clockHigh (List.mem_cons_of_mem _ (List.mem_singleton_self _))

/-- **One event** keeps the log in order. -/
theorem live (h : s.Recorded es) {ev : LifeEvent} (hcred : s.Credible ev) (hlive : s.live R ev = some (s', out)) :
    ∃ es', s'.Recorded es' := by
  cases ev with
  | step a =>
    cases a with
    | put i items => exact h.stepWriter hcred (fun k hk => by cases hk) hlive
    | mint i => exact h.stepWriter hcred (fun k hk => by cases hk) hlive
    | publish i => exact h.stepWriter hcred (fun k hk => by cases hk) hlive
    | append i => exact h.stepWriter hcred (fun k hk => by cases hk; rfl) hlive
    | flush i => exact h.stepWriter hcred (fun k hk => by cases hk) hlive
    | join j delta => exact ⟨es, h.stepJoiner hlive⟩
    | observe j => exact ⟨es, h.stepJoiner hlive⟩
    | merge j => exact ⟨es, h.stepJoiner hlive⟩
    | cut => exact h.stepRunner hcred hlive
    | capture => exact h.stepRunner hcred hlive
    | readClock => exact h.stepRunner hcred hlive
    | appendCheckpoint => exact h.stepRunner hcred hlive
    | flushCheckpoint => exact h.stepRunner hcred hlive
    | writeImage => exact h.stepRunner hcred hlive
  | join j delta =>
    rw [Node.live] at hlive
    split at hlive
    · cases hlive
      exact ⟨es, h.keep rfl le_rfl (UInt64.le_refl _) rfl⟩
    · cases hlive
  | recordAdvance v =>
    rw [Node.live] at hlive
    split at hlive
    · cases hlive
      refine ⟨_, h.append (h.holds.write_ok (.clockAdvance v)) (fun e he => ?_) rfl s.writers⟩
      rw [List.mem_singleton.mp he]
      exact LogEntry.fits_of_not_mutation (by simp)
    · cases hlive
  | reboot cut seeds =>
    rw [Node.live] at hlive
    split at hlive
    · next hcut =>
      split at hlive
      · cases hlive
      · next out hrec =>
        cases hlive
        exact h.reboot hcut hrec
    · cases hlive

/-- **Every history** keeps the log in order. -/
theorem run {r : Replica} {snapshotter : Bool} {events : List LifeEvent} {s : Node}
    {acked : List WALMutation}
    (hrun : Lib.run (Node.live R) (Node.fresh r snapshotter) events = some (s, acked))
    (hcred : Meets (Node.live R) Node.Credible (Node.fresh r snapshotter) events) :
    ∃ es, s.Recorded es := by
  refine run_state_invariant (Q := fun s : Node => ∃ es, s.Recorded es) (fun s ev s' out hs hG hstep => ?_)
    ⟨[], fresh r snapshotter⟩ hcred hrun
  obtain ⟨es, hes⟩ := hs
  exact hes.live hG hstep

end Node.Recorded

/-! ### The result -/

/-- The clock of a recovered engine against everything that was recorded: the state, the log and the
image; and the next dot is new. -/
structure Dominates (R : Runtime) (e : Engine) (es : List LogEntry) (image : Option SnapshotImage) : Prop
    where
  state : ∀ x ∈ e.contents R, x.entry.dotCounter ≤ e.lamportCounter
  log : ∀ entry ∈ es, ∀ c ∈ recordedCounters entry, c ≤ e.lamportCounter
  image : ∀ img ∈ image, img.lamportHigh ≤ e.lamportCounter ∧
    ∀ x ∈ img.records, x.entry.dotCounter ≤ e.lamportCounter
  fresh : e.lamportCounter ≠ 0xFFFFFFFFFFFFFFFF →
    (∀ m, LogEntry.mutation m ∈ es → dotOf m ≠ e.nextDot.1) ∧ ∀ x ∈ e.contents R, x.entry.dot ≠ e.nextDot.1

/-- An image that recovery uses carries the watermark of the last checkpoint. -/
theorem usableImage_watermark {rep : Replayed} {nodeID : NodeID} {store : Option SnapshotStore}
    {img : SnapshotImage} (h : usableImage rep nodeID store = .ok img) :
    rep.hasCheckpoint = true ∧ img.lamportHigh = rep.finalCheckpt.lamportHigh := by
  unfold usableImage at h
  split at h
  · cases h
  split at h
  · cases h
  next img' hsel =>
  split at h
  · cases h
  cases h
  rw [selectImage] at hsel
  split at hsel
  · next hck =>
    refine ⟨hck, ?_⟩
    simp only at hsel
    split at hsel
    · cases hsel
    · cases hsel
    split at hsel
    · cases hsel
    split_ifs at hsel with hwater hbound
    · cases hsel
      exact not_not.mp hwater
  · cases hsel

/-- **The clock across restarts.**  In every history of local writes, joins, clock-advance records,
checkpoints, crashes and boots in which the clock does not wrap, the records fit the limit of replay
and the checkpoints carry credible clocks: after every recovery the clock is at least every counter of
the recovered state, of the surviving log and of the image, and the next dot is new. -/
theorem recovered_clock_dominates (R : Runtime) (r : Replica) (snapshotter : Bool)
    (events : List LifeEvent) (s : Node) (acked : List WALMutation)
    (hrun : run (Node.live R) (Node.fresh r snapshotter) events = some (s, acked))
    (hcred : Meets (Node.live R) Node.Credible (Node.fresh r snapshotter) events)
    (cut : ℕ) (hcut : s.synced ≤ cut) (seeds : BootSeeds) (out : Recovered)
    (hrec : s.recover R cut seeds = .ok out) :
    ∃ es, out.wal.Holds es [] ∧
      Dominates R out.engine es (usableImage out.rep s.engine.localNodeID s.store).toOption := by
  obtain ⟨es₀, h⟩ := Node.Recorded.run hrun hcred
  obtain ⟨es, -, hholds, hlog, hwater⟩ := h.recovered hcut hrec
  obtain ⟨-, -, rb, hrebuild, hengine⟩ := recover_ok hrec
  obtain ⟨hcovers, himage⟩ := rebuild_covers hrebuild
  rw [← hengine] at hcovers himage
  refine ⟨es, hholds, hcovers.contents, hlog, fun img himg => ⟨?_, himage img himg⟩, fun hmax => ?_⟩
  · have hok : usableImage out.rep s.engine.localNodeID s.store = .ok img := by
      cases husable : usableImage out.rep s.engine.localNodeID s.store with
      | error err => simp [husable, Except.toOption] at himg
      | ok img' =>
        simp only [husable, Except.toOption, Option.mem_def, Option.some.injEq] at himg
        rw [himg]
    obtain ⟨hck, hmark⟩ := usableImage_watermark hok
    exact hmark ▸ hwater hck
  · -- the next counter is above the clock, and everything else is not
    have hlt : ∀ c, c ≤ out.engine.lamportCounter → c ≠ out.engine.lamportCounter + 1 := by
      intro c hc heq
      grind
    rw [Engine.nextDot_fst]
    refine ⟨fun m hm hdot => ?_, fun x hx hdot => ?_⟩
    · exact hlt m.counter (hlog _ hm m.counter (List.mem_singleton_self _)) (congrArg CausalDot.counter hdot)
    · exact hlt _ (hcovers.contents x hx) (congrArg CausalDot.counter hdot)

/-- A write, a foreign counter, its clock-advance record, a checkpoint, a crash, and another write. -/
def sampleLife : List LifeEvent :=
  [.step (.put 0 [sampleItem]), .step (.mint 0), .step (.publish 0), .step (.append 0), .step (.flush 0),
    .join 0 ⟨sampleNode 2, [⟨[0x62], sampleEntry 2 40 0⟩]⟩, .step (.observe 0), .recordAdvance 40,
    .step .cut, .step .capture, .step .readClock, .step .appendCheckpoint, .step .flushCheckpoint,
    .reboot 4096 ⟨fun _ => 0, 0⟩,
    .step (.put 0 [sampleItem]), .step (.mint 0), .step (.publish 0), .step (.append 0), .step (.flush 0)]

set_option maxRecDepth 100000 in
theorem recovered_clock_dominates_on_sample :
    ∃ s acked out es, run (Node.live Runtime.sample) (Node.fresh (sampleReplica false) false) sampleLife
        = some (s, acked) ∧ acked.map WALMutation.counter = [1, 41] ∧
      s.recover Runtime.sample s.synced ⟨fun _ => 0, 0⟩ = .ok out ∧ out.wal.Holds es [] ∧
      Dominates Runtime.sample out.engine es
        (usableImage out.rep s.engine.localNodeID s.store).toOption := by
  have heval : (run (Node.live Runtime.sample) (Node.fresh (sampleReplica false) false) sampleLife).map
      (fun p => (p.2.map WALMutation.counter,
        (p.1.recover Runtime.sample p.1.synced ⟨fun _ => 0, 0⟩).isOk)) = some ([1, 41], true) := by
    decide +kernel
  obtain ⟨⟨s, acked⟩, hrun, hresult⟩ := Option.map_eq_some_iff.mp heval
  obtain ⟨hcounters, hok⟩ := Prod.mk.inj hresult
  cases hrec : s.recover Runtime.sample s.synced ⟨fun _ => 0, 0⟩ with
  | error err =>
    rw [hrec] at hok
    cases hok
  | ok out =>
    obtain ⟨es, hholds, hdom⟩ := recovered_clock_dominates Runtime.sample (sampleReplica false) false
      sampleLife s acked hrun (by decide +kernel) s.synced le_rfl ⟨fun _ => 0, 0⟩ out hrec
    exact ⟨s, acked, out, es, hrun, hcounters, hrec, hholds, hdom⟩

/-- A foreign counter above what replay believes, and a checkpoint that records it. -/
def incredibleLife : List LifeEvent :=
  [.join 0 ⟨sampleNode 2, [⟨[0x62], sampleEntry 2 (maxCredibleClockHigh + 5) 0⟩]⟩, .step (.observe 0),
    .step .cut, .step .capture, .step .readClock, .step .appendCheckpoint, .step .flushCheckpoint]

def incredibleCheckpoint : WALCheckpoint :=
  checkpointOf Runtime.sample (sampleReplica false).nodeID [] 0 (maxCredibleClockHigh + 5) false

/-- The node boots with a clock of zero, although its log holds a checkpoint with a clock beyond
`maxCredibleClockHigh`. -/
theorem incredible_clock_is_forgotten :
    ∃ s out es c, run (Node.live Runtime.sample) (Node.fresh (sampleReplica false) false) incredibleLife
        = some (s, []) ∧
      s.recover Runtime.sample s.synced ⟨fun _ => 0, 0⟩ = .ok out ∧ out.wal.Holds es [] ∧
      .checkpoint c ∈ es ∧ c.clockHigh = maxCredibleClockHigh + 5 ∧ out.engine.lamportCounter = 0 := by
  have heval : (run (Node.live Runtime.sample) (Node.fresh (sampleReplica false) false) incredibleLife).map
      (fun p => (p.2, (p.1.recover Runtime.sample p.1.synced ⟨fun _ => 0, 0⟩).toOption.map
        fun out => (out.wal.file, out.wal.nextSeq, out.engine.lamportCounter)))
      = some ([], some (fileHeader ++ (records 0 [.checkpoint incredibleCheckpoint] ++ []), 1, 0)) := by
    decide +kernel
  obtain ⟨⟨s, acked⟩, hrun, hresult⟩ := Option.map_eq_some_iff.mp heval
  obtain ⟨rfl, hboot⟩ := Prod.mk.inj hresult
  obtain ⟨out, hout, hfields⟩ := Option.map_eq_some_iff.mp hboot
  obtain ⟨hfile, hrest⟩ := Prod.mk.inj hfields
  obtain ⟨hseq, hclock⟩ := Prod.mk.inj hrest
  have hrec : s.recover Runtime.sample s.synced ⟨fun _ => 0, 0⟩ = .ok out := by
    cases hcase : s.recover Runtime.sample s.synced ⟨fun _ => 0, 0⟩ with
    | error err => simp [hcase, Except.toOption] at hout
    | ok out' =>
      simp only [hcase, Except.toOption, Option.some.injEq] at hout
      rw [hout]
  exact ⟨s, out, [.checkpoint incredibleCheckpoint], incredibleCheckpoint, hrun, hrec, ⟨hfile, hseq⟩,
    List.mem_singleton_self _, rfl, hclock⟩

end Sovereign.Durability

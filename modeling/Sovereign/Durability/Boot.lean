import Sovereign.Durability.Bridge
import Sovereign.Sync.Invariant
import Sovereign.Wal.CrashPrefix

/-!
# What the write path acknowledges and what the boot path accepts

Runs of `PutLocal` and `PutLocals`, all acknowledged, with joins of foreign deltas in between; the
joins move the Lamport clock, so the counters of the writes are arbitrary.  The boot path
accepts the log if replay succeeds, returns the acknowledged mutations, and every record passes
`checkMutationRecord`.

The encoder limits neither the entity identifier nor the counter.  `acknowledged_writes_accepted_iff`
says which writes the boot path accepts: those whose record is at most `maxRecordPayloadLen` long
and whose counter is between one and `maxPlausibleCounter`.  `acknowledged_write_refused` is a node
that has acknowledged one write and does not boot.
-/

namespace Sovereign.Durability

open Lib Sync Wal

variable (R : Runtime)

/-- A call on the bridge, or the join of a foreign delta. -/
inductive BridgeCall where
  | putLocal (item : LocalItem) (f : Faults)
  | putLocals (items : List LocalItem) (f : Faults)
  | join (delta : CRDTDelta)

/-- Execute a call that is acknowledged; it logs the mutations it wrote. -/
def Bridge.step (b : Bridge) : BridgeCall → Option (Bridge × List WALMutation)
  | .putLocal item f =>
    match b.putLocal R item f with
    | (b', dot, .ok ()) => some (b', [item.mutation R dot])
    | (_, _, .error _) => none
  | .putLocals items f =>
    match b.putLocals R items f with
    | (b', _, .ok ()) => some (b', (insertLocals R b.engine items).2.2)
    | (_, _, .error _) => none
  | .join delta => some ({ b with engine := b.engine.join R delta }, [])

/-- The boot path of a node accepts the log with these mutations. -/
def BootAccepts (nodeID : NodeID) (file : Bytes) (acked : List WALMutation) : Prop :=
  ∃ rep, replayWAL file = .ok rep ∧ (∀ m ∈ acked, m ∈ rep.mutations) ∧
    ∀ m ∈ rep.mutations, checkMutationRecord m nodeID = .ok ()

/-- The record is within the length limit of replay, its counter within that of recovery. -/
def Acceptable (m : WALMutation) : Prop :=
  (LogEntry.mutation m).Fits ∧ m.counter ≠ 0 ∧ m.counter ≤ maxPlausibleCounter

instance (m : WALMutation) : Decidable (Acceptable m) := inferInstanceAs (Decidable (_ ∧ _))

/-- A mutation as the write path of a node builds and validates it. -/
structure WrittenBy (nodeID : NodeID) (m : WALMutation) : Prop where
  built : ∃ id counter entry, m = newWALMutation id ⟨nodeID, counter⟩ entry
  valid : validateV2 m = .ok ()

variable {R}

namespace WrittenBy

variable {nodeID : NodeID} {m : WALMutation}

theorem readBack (h : WrittenBy nodeID m) : m.readBack = m := by
  obtain ⟨id, counter, entry, rfl⟩ := h.built
  rfl

/-- Of the checks on a record, those on the counter are left. -/
theorem check_iff (h : WrittenBy nodeID m) :
    checkMutationRecord m nodeID = .ok () ↔ m.counter ≠ 0 ∧ m.counter ≤ maxPlausibleCounter := by
  obtain ⟨hid, -, -, -, horigin⟩ := WAL.validateV2_ok h.valid
  obtain ⟨id, counter, entry, rfl⟩ := h.built
  have hid' : id ≠ [] := hid
  have hnode : nodeID ≠ .zero 16 := horigin
  simp only [checkMutationRecord, newWALMutation, hid', hnode, if_false, false_or]
  by_cases hzero : counter = 0
  · simp [hzero]
  by_cases hbig : maxPlausibleCounter < counter
  · simp [hzero, hbig]
  · simp [hzero, hbig, UInt64.not_lt.mp hbig]

end WrittenBy

theorem insertLocals_built (e : Engine) (items : List LocalItem) :
    (Bridge.insertLocals R e items).1.localNodeID = e.localNodeID ∧
      ∀ m ∈ (Bridge.insertLocals R e items).2.2,
        ∃ id counter entry, m = newWALMutation id ⟨e.localNodeID, counter⟩ entry := by
  induction items generalizing e with
  | nil => exact ⟨rfl, by simp [Bridge.insertLocals]⟩
  | cons item items ih =>
    obtain ⟨hnode, hbuilt⟩ := ih (e.insertLocal R item.entityID (item.digested R)).2
    refine ⟨hnode, fun m hm => ?_⟩
    rcases List.mem_cons.mp hm with rfl | hm
    · exact ⟨item.entityID, e.lamportCounter + 1, item.digested R, rfl⟩
    · exact hbuilt m hm

/-- The log of acknowledged writes. -/
structure Bridge.Wrote (nodeID : NodeID) (b : Bridge) (acked : List WALMutation) : Prop where
  node : b.engine.localNodeID = nodeID
  holds : b.wal.Holds (acked.map .mutation) []
  written : ∀ m ∈ acked, WrittenBy nodeID m

variable {nodeID : NodeID} {b : Bridge} {acked : List WALMutation}

theorem Bridge.Wrote.append
    (h : b.Wrote nodeID acked) (call : AppendCall) (ms : List WALMutation) {f : Faults} {w : WAL}
    {engine : Engine} (hnode : engine.localNodeID = nodeID)
    (hok : b.wal.append call f = (w, .ok ())) (hms : call.entries = ms.map .mutation)
    (hbuilt : ∀ m ∈ ms, ∃ id counter entry, m = newWALMutation id ⟨nodeID, counter⟩ entry) :
    Wrote nodeID { b with engine := engine, wal := w } (acked ++ ms) := by
  refine ⟨hnode, ?_, fun m hm => ?_⟩
  · rw [List.map_append, ← hms]
    exact WAL.append_ok h.holds hok
  · rcases List.mem_append.mp hm with hm | hm
    · exact h.written m hm
    · exact ⟨hbuilt m hm, WAL.append_ok_valid hok m (hms ▸ List.mem_map_of_mem hm)⟩

/-- **One acknowledged call.** -/
theorem Bridge.Wrote.step {b' : Bridge} {out : List WALMutation}
    (h : b.Wrote nodeID acked) {call : BridgeCall} (hstep : b.step R call = some (b', out)) :
    b'.Wrote nodeID (acked ++ out) := by
  cases call with
  | join delta =>
    cases hstep
    rw [List.append_nil]
    exact ⟨(Engine.join_clock _ _).2.trans h.node, h.holds, h.written⟩
  | putLocal item f =>
    rw [Bridge.step, Bridge.putLocal] at hstep
    split at hstep
    · next b₁ dot heq =>
      simp only [Prod.mk.injEq] at heq
      obtain ⟨rfl, rfl, hok⟩ := heq
      cases hstep
      refine h.append (.mutation _) [_] (f := f) h.node (Prod.ext rfl hok) rfl fun m hm => ?_
      rw [List.mem_singleton.mp hm]
      exact ⟨item.entityID, b.engine.lamportCounter + 1, item.digested R, h.node ▸ rfl⟩
    · cases hstep
  | putLocals items f =>
    obtain ⟨hnode, hbuilt⟩ := insertLocals_built (R := R) b.engine items
    rw [Bridge.step, Bridge.putLocals] at hstep
    split at hstep
    · next b₁ dots heq =>
      simp only [Prod.mk.injEq] at heq
      obtain ⟨rfl, -, hok⟩ := heq
      cases hstep
      refine h.append (.mutations _) _ (f := f) (hnode.trans h.node) (Prod.ext rfl hok) rfl ?_
      rwa [h.node] at hbuilt
    · cases hstep

/-! ### Acceptance -/

theorem filterMap_mutation_of_written {ms : List WALMutation} (h : ∀ m ∈ ms, WrittenBy nodeID m) :
    (ms.map LogEntry.mutation).filterMap LogEntry.mutation? = ms := by
  have hread : ∀ m ∈ ms, (LogEntry.mutation? ∘ LogEntry.mutation) m = some m := fun m hm =>
    congrArg some (h m hm).readBack
  rw [List.filterMap_map, List.filterMap_congr hread, List.filterMap_some]

/-- Replay of a log of short records gives the mutations back. -/
theorem Bridge.Wrote.replay (h : b.Wrote nodeID acked) (hfit : ∀ m ∈ acked, (LogEntry.mutation m).Fits) :
    ∃ rep wal, replayWAL b.wal.file = .ok rep ∧ openWAL b.wal.file = .ok wal ∧
      rep.mutations = acked ∧ rep.ordered.filterMap recordMutation? = acked := by
  have hall : ∀ e ∈ acked.map LogEntry.mutation, e.Fits := fun e he => by
    obtain ⟨m, hm, rfl⟩ := List.mem_map.mp he
    exact hfit m hm
  obtain ⟨hmut, -, hord⟩ := Replayed.empty.addAll_lists 0 (acked.map .mutation)
  have hopen := openWAL_records (fun e he => (hall e he).lt) (torn_nil _)
  rw [← h.holds.file] at hopen
  refine ⟨_, _, h.holds.replay hall, hopen, ?_, ?_⟩
  · exact hmut.trans (filterMap_mutation_of_written h.written)
  · exact (congrArg (List.filterMap recordMutation?) hord).trans
      ((filterMap_orderedFrom 0 _).trans (filterMap_mutation_of_written h.written))

/-- Replay of a log with an overlong record does not give that mutation back. -/
theorem Bridge.Wrote.not_replayed
    (h : b.Wrote nodeID acked) (hlong : ∃ m ∈ acked, ¬ (LogEntry.mutation m).Fits) {rep : Replayed}
    (hrep : replayWAL b.wal.file = .ok rep) : ∃ m ∈ acked, m ∉ rep.mutations := by
  -- the first overlong record stands behind records that replay reads
  obtain ⟨m, pre, post, rfl, hm, hpre⟩ : ∃ m pre post, acked = pre ++ m :: post ∧
      ¬ (LogEntry.mutation m).Fits ∧ ∀ m' ∈ pre, (LogEntry.mutation m').Fits := by
    obtain ⟨m₀, hm₀, hbad⟩ := hlong
    have hsome : (acked.find? fun m => ¬ (LogEntry.mutation m).Fits).isSome := by
      rw [List.find?_isSome]
      exact ⟨m₀, hm₀, by simpa using hbad⟩
    obtain ⟨m, hfind⟩ := Option.isSome_iff_exists.mp hsome
    obtain ⟨hm, pre, post, heq, hpre⟩ := List.find?_eq_some_iff_append.mp hfind
    exact ⟨m, pre, post, heq, by simpa using hm, fun m' hm' => by simpa using hpre m' hm'⟩
  refine ⟨m, by simp, fun hmem => ?_⟩
  have hlong := hm
  rw [LogEntry.Fits, Nat.not_le] at hlong
  have hlen := LogEntry.payload_length_mutation m
  by_cases hlt : (LogEntry.mutation m).payload.length < 256 ^ 4
  · have hfit : ∀ e ∈ pre.map LogEntry.mutation, e.Fits := fun e he => by
      obtain ⟨m', hm', rfl⟩ := List.mem_map.mp he
      exact hpre m' hm'
    have hfile := h.holds.file
    rw [List.map_append, List.map_cons, records_append, records, List.append_nil, Nat.zero_add]
      at hfile
    rw [hfile, replayWAL_tooLong hfit hm hlt] at hrep
    cases hrep
  · have := replayWAL_entityID_le hrep m hmem
    rw [maxRecordPayloadLen] at this
    omega

theorem Bridge.Wrote.boots (h : b.Wrote nodeID acked) (hall : ∀ m ∈ acked, Acceptable m) (seeds : BootSeeds) :
    ∃ out, recoverEngine R seeds nodeID (some b.wal.file) = .ok out := by
  obtain ⟨rep, wal, hrep, hopen, -, hord⟩ := h.replay fun m hm => (hall m hm).1
  have hcheck : ∀ m ∈ Rebuild.inTail none rep.ordered, checkMutationRecord m nodeID = .ok () := by
    rw [inTail_none, hord]
    exact fun m hm => (h.written m hm).check_iff.mpr (hall m hm).2
  obtain ⟨rb, hrb⟩ := Rebuild.replayTail_total (R := R) hcheck
    ⟨newEngineAt seeds nodeID (rebuiltInitial rep), [], 0, 0, 0⟩
  have husable : usableImage rep nodeID none = .error none := rfl
  obtain ⟨out, hout, -⟩ := recover_exact hrep hopen husable (rebuild_none hrb)
  exact ⟨out, hout⟩

/-- **What the boot path accepts.**  After any run of acknowledged local writes and foreign joins, on
any engine and a fresh log, the boot path accepts the log exactly if every acknowledged
mutation has a record within the length limit and a counter within the recovery limit; and then the
node boots. -/
theorem acknowledged_writes_accepted_iff (R : Runtime) (engine : Engine)
    (snapshotter : Option Objects) (calls : List BridgeCall) (b : Bridge) (acked : List WALMutation)
    (hrun : run (Bridge.step R) ⟨engine, ⟨fileHeader, 0⟩, snapshotter⟩ calls = some (b, acked)) :
    (BootAccepts engine.localNodeID b.wal.file acked ↔ ∀ m ∈ acked, Acceptable m) ∧
      ((∀ m ∈ acked, Acceptable m) →
        ∀ seeds, ∃ out, recoverEngine R seeds engine.localNodeID (some b.wal.file) = .ok out) := by
  have hnew : Bridge.Wrote engine.localNodeID ⟨engine, ⟨fileHeader, 0⟩, snapshotter⟩ [] :=
    ⟨rfl, WAL.holds_new, by simp⟩
  have hwrote : b.Wrote engine.localNodeID acked :=
    run_invariant (fun _ _ _ _ _ h _ hs => Bridge.Wrote.step h hs) hnew
      (meets_of_forall (fun _ _ => trivial) _ calls) hrun
  refine ⟨⟨fun ⟨rep, hrep, hin, hcheck⟩ m hm => ?_, fun hall => ?_⟩, fun hall seeds => ?_⟩
  · have hfit : ∀ m ∈ acked, (LogEntry.mutation m).Fits := by
      by_contra hlong
      push Not at hlong
      obtain ⟨m, hm, hout⟩ := hwrote.not_replayed hlong hrep
      exact hout (hin m hm)
    exact ⟨hfit m hm, (hwrote.written m hm).check_iff.mp (hcheck m (hin m hm))⟩
  · obtain ⟨rep, -, hrep, -, hmut, -⟩ := hwrote.replay fun m hm => (hall m hm).1
    refine ⟨rep, hrep, fun m hm => hmut ▸ hm, fun m hm => ?_⟩
    rw [hmut] at hm
    exact (hwrote.written m hm).check_iff.mpr (hall m hm).2
  · exact hwrote.boots hall seeds

/-! ### Samples -/

/-- The bridge of a node that boots for the first time. -/
def sampleBridge : Bridge :=
  ⟨newEngine 1 (fun _ => 0) 0 (sampleNode 1) 1, ⟨fileHeader, 0⟩, none⟩

def sampleItem : LocalItem := ⟨[0x61], [0x70], sampleEntry 1 0 0⟩

theorem acknowledged_writes_accepted_on_sample :
    ∃ b acked, run (Bridge.step Runtime.sample) sampleBridge
        [.putLocal sampleItem .none, .putLocals [sampleItem, sampleItem] .none] = some (b, acked) ∧
      acked.length = 3 ∧ BootAccepts (sampleNode 1) b.wal.file acked := by
  obtain ⟨hiff, -⟩ := acknowledged_writes_accepted_iff Runtime.sample sampleBridge.engine none
    [.putLocal sampleItem .none, .putLocals [sampleItem, sampleItem] .none] _ _ rfl
  exact ⟨_, _, rfl, rfl, hiff.mpr (by decide +kernel)⟩

/-- A foreign entry at the ceiling of the counter, and a local write after it: the write is
acknowledged, and the node does not boot. -/
theorem acknowledged_write_refused :
    ∃ b m, run (Bridge.step Runtime.sample) sampleBridge
        [.join ⟨sampleNode 2, [⟨[0x62], sampleEntry 2 maxPlausibleCounter 0⟩]⟩,
          .putLocal sampleItem .none] = some (b, [m]) ∧
      ¬ BootAccepts (sampleNode 1) b.wal.file [m] ∧
      ∀ seeds, recoverEngine Runtime.sample seeds (sampleNode 1) (some b.wal.file)
        = .error (.record (.counterCeiling [0x61] (maxPlausibleCounter + 1))) := by
  refine ⟨_, _, rfl, fun ⟨rep, _, hin, hcheck⟩ => ?_, fun seeds => ?_⟩
  · have hok := hcheck _ (hin _ (List.mem_singleton_self _))
    revert hok
    decide +kernel
  · have hfits : ∀ e ∈ [LogEntry.mutation (sampleItem.mutation Runtime.sample
        ⟨sampleNode 1, maxPlausibleCounter + 1⟩)], e.Fits := by decide +kernel
    exact recover_refuses ((WAL.holds_new.write_ok _).replay hfits) rfl rfl (by decide +kernel)

end Sovereign.Durability

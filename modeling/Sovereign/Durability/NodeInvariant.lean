import Sovereign.Durability.Node

/-!
# The invariant of a node

What every interleaving of local writes, foreign joins and checkpoints keeps, as long as the minted
mutations are within the limits of recovery.  The invariant speaks of two ghost lists: the mutations
`issued` so far, one for every dot that was minted, and the entries `es` of the log.

* Every local dot in the engine, in a captured image and in the log is that of an issued mutation, with
  its entity and its entry (`Inv.held`, `Captured.issued`, `LogWF.mutations`).
* Every acknowledged mutation is in the durable part of the log (`Inv.acked`).
* The cut of a checkpoint is not behind its own record and behind the record of every earlier
  checkpoint, so a cut belongs to one checkpoint (`LogWF.eq_of_cutSeq`).
* Every image in the store was captured for a checkpoint of the log (`Inv.objects`).

`Inv.step` is the step lemma.
-/

namespace Sovereign.Durability

open Lib Sync Wal

/-! ### Mutations, captures and the log -/

def itemOf (m : WALMutation) : SnapshotRecord := ⟨m.entityID, m.full⟩

/-- A mutation minted by a node, within the limits of recovery. -/
structure Issued (node : NodeID) (m : WALMutation) : Prop where
  built : ∃ id counter entry, m = newWALMutation id ⟨node, counter⟩ entry
  acceptable : Acceptable m

theorem Issued.dot {node : NodeID} {m : WALMutation} (h : Issued node m) :
    (itemOf m).entry.dot = ⟨node, m.counter⟩ ∧ dotOf m = ⟨node, m.counter⟩ := by
  obtain ⟨id, counter, entry, rfl⟩ := h.built
  exact ⟨rfl, rfl⟩

/-- A mutation whose whole record is within the first `n` bytes of the log. -/
def Durable (es : List LogEntry) (n : ℕ) (m : WALMutation) : Prop :=
  ∃ pre post, es = pre ++ .mutation m :: post ∧
    fileHeader.length + (records 0 (pre ++ [.mutation m])).length ≤ n

variable {es : List LogEntry} {issued ms : List WALMutation} {c : WALCheckpoint} {node : NodeID}
  {pairs : List (EntityID × List CRDTEntry)}
  {cutSeq : UInt64} {snapshotter : Bool} {batches : List (EntityID × List CRDTEntry)}

theorem Durable.mono {n n' : ℕ} {m : WALMutation} (h : Durable es n m)
    (hn : n ≤ n') (more : List LogEntry) : Durable (es ++ more) n' m := by
  obtain ⟨pre, post, rfl, hle⟩ := h
  exact ⟨pre, post ++ more, by simp, by omega⟩

/-- Pairs captured from an engine: one list per entity, and local entries as they were issued. -/
structure Captured (node : NodeID) (issued : List WALMutation)
    (pairs : List (EntityID × List CRDTEntry)) : Prop where
  nodup : (pairs.map Prod.fst).Nodup
  ascending : ∀ p ∈ pairs, Ascending compareDots CRDTEntry.dot p.2
  issued : ∀ x ∈ recordsOf pairs, x.entry.dotNodeID = node → ∃ m ∈ issued, x = itemOf m

theorem Captured.mono (h : Captured node issued pairs)
    (more : List WALMutation) : Captured node (issued ++ more) pairs :=
  ⟨h.nodup, h.ascending, fun x hx hlocal =>
    (h.issued x hx hlocal).imp fun _ hm => ⟨List.mem_append_left _ hm.1, hm.2⟩⟩

structure LogWF (issued : List WALMutation) (es : List LogEntry) : Prop where
  mutations : ∀ m, .mutation m ∈ es → m ∈ issued ∧ validateV2 m = .ok ()
  cuts : ∀ (i : ℕ) (c : WALCheckpoint), es[i]? = some (.checkpoint c) →
    c.hasCutSeq = true ∧ c.cutSeq.toNat ≤ i
  ordered : ∀ (i j : ℕ) (c c' : WALCheckpoint), i < j → es[i]? = some (.checkpoint c) →
    es[j]? = some (.checkpoint c') → i < c'.cutSeq.toNat
  short : es.length < 2 ^ 64

/-- A cut that the next checkpoint may have. -/
def CutFree (es : List LogEntry) (cutSeq : UInt64) : Prop :=
  cutSeq.toNat ≤ es.length ∧
    ∀ (i : ℕ) (c : WALCheckpoint), es[i]? = some (.checkpoint c) → i < cutSeq.toNat

/-- A cut belongs to one checkpoint. -/
theorem LogWF.eq_of_cutSeq (h : LogWF issued es)
    {c' : WALCheckpoint} (hc : .checkpoint c ∈ es) (hc' : .checkpoint c' ∈ es)
    (hcut : c.cutSeq = c'.cutSeq) : c = c' := by
  obtain ⟨i, hi⟩ := List.getElem?_of_mem hc
  obtain ⟨j, hj⟩ := List.getElem?_of_mem hc'
  have hci := (h.cuts i c hi).2
  have hcj := (h.cuts j c' hj).2
  rcases Nat.lt_trichotomy i j with hij | rfl | hij
  · have := h.ordered i j c c' hij hi hj
    rw [hcut] at hci
    omega
  · exact LogEntry.checkpoint.inj (Option.some.inj (hi.symm.trans hj))
  · have := h.ordered j i c' c hij hj hi
    rw [← hcut] at hcj
    omega

theorem getElem?_checkpoint_append {i : ℕ} (h : (es ++ ms.map .mutation)[i]? = some (.checkpoint c)) :
    es[i]? = some (.checkpoint c) := by
  by_cases hi : i < es.length
  · rwa [List.getElem?_append_left hi] at h
  · rw [List.getElem?_append_right (by omega)] at h
    have hmem := List.mem_of_getElem? h
    simp at hmem

theorem LogWF.mutations_append (h : LogWF issued es) (hms : ∀ m ∈ ms, m ∈ issued ∧ validateV2 m = .ok ())
    (hshort : es.length + ms.length < 2 ^ 64) : LogWF issued (es ++ ms.map .mutation) := by
  refine ⟨fun m hm => ?_, fun i c hi => h.cuts i c (getElem?_checkpoint_append hi),
    fun i j c c' hij hi hj => h.ordered i j c c' hij (getElem?_checkpoint_append hi)
      (getElem?_checkpoint_append hj), by simpa using hshort⟩
  rcases List.mem_append.mp hm with hm | hm
  · exact h.mutations m hm
  · obtain ⟨m', hm', heq⟩ := List.mem_map.mp hm
    cases heq
    exact hms m hm'

theorem CutFree.mutations_append (h : CutFree es cutSeq)
    (ms : List WALMutation) : CutFree (es ++ ms.map .mutation) cutSeq :=
  ⟨by simpa using h.1.trans (Nat.le_add_right _ _),
    fun i c hi => h.2 i c (getElem?_checkpoint_append hi)⟩

theorem LogWF.checkpoint_append (h : LogWF issued es) (hcut : c.hasCutSeq = true) (hfree : CutFree es c.cutSeq)
    (hshort : es.length + 1 < 2 ^ 64) : LogWF issued (es ++ [.checkpoint c]) := by
  have hcases : ∀ (i : ℕ) (c' : WALCheckpoint), (es ++ [LogEntry.checkpoint c])[i]? = some (.checkpoint c') →
      es[i]? = some (.checkpoint c') ∨ i = es.length ∧ c' = c := by
    intro i c' hi
    by_cases hlt : i < es.length
    · rw [List.getElem?_append_left hlt] at hi
      exact .inl hi
    · rw [List.getElem?_append_right (by omega), List.getElem?_singleton] at hi
      split at hi
      · next hzero => exact .inr ⟨by omega, (LogEntry.checkpoint.inj (Option.some.inj hi)).symm⟩
      · cases hi
  have hlt : ∀ (i : ℕ) (c' : WALCheckpoint), es[i]? = some (LogEntry.checkpoint c') → i < es.length := fun i c' hi =>
    (List.getElem?_eq_some_iff.mp hi).1
  refine ⟨fun m hm => ?_, fun i c' hi => ?_, fun i j c₁ c₂ hij hi hj => ?_, by simpa using hshort⟩
  · rcases List.mem_append.mp hm with hm | hm
    · exact h.mutations m hm
    · simp at hm
  · rcases hcases i c' hi with hi | ⟨rfl, rfl⟩
    · exact h.cuts i c' hi
    · exact ⟨hcut, hfree.1⟩
  · rcases hcases j c₂ hj with hj | ⟨rfl, rfl⟩
    · rcases hcases i c₁ hi with hi | ⟨rfl, -⟩
      · exact h.ordered i j c₁ c₂ hij hi hj
      · have := hlt j c₂ hj
        omega
    · rcases hcases i c₁ hi with hi | ⟨rfl, -⟩
      · exact hfree.2 i c₁ hi
      · omega

/-! ### Calls in flight -/

variable (R : Runtime)

/-- No entry of the engine has the dot. -/
def Unused (e : Engine) (dot : CausalDot) : Prop := ∀ x ∈ e.contents R, x.entry.dot ≠ dot

def Writer.WF (e : Engine) (issued : List WALMutation) (es : List LogEntry) : Writer → Prop
  | .idle => True
  | .inserting done _ => ∀ m ∈ done, m ∈ issued
  | .minted done dot item _ =>
    (∀ m ∈ done, m ∈ issued) ∧ item.mutation R dot ∈ issued ∧ Unused R e dot
  | .flushing upTo ms => ∀ m ∈ ms, Durable es upTo m

/-- The dot that is minted and not published. -/
def Writer.pending : Writer → Option CausalDot
  | .minted _ dot _ _ => some dot
  | _ => none

/-- Blocks of a foreign delta for one shard. -/
structure Batch (r : Replica) (e : Engine) (k : ℕ) (batches : List (EntityID × List CRDTEntry)) :
    Prop where
  nodup : (batches.map Prod.fst).Nodup
  routed : ∀ b ∈ batches, Engine.route R r.routeSeed r.shardCount b.1 = k
  ascending : ∀ b ∈ batches, Ascending compareDots CRDTEntry.dot b.2
  foreign : ∀ b ∈ batches, ∀ x ∈ b.2, x.dotNodeID ≠ r.nodeID ∨ (⟨b.1, x⟩ : IncomingEntry) ∈ e.contents R

def Joiner.WF (r : Replica) (e : Engine) : Joiner → Prop
  | .idle => True
  | .running _ todo => ∀ p ∈ todo, Batch R r e p.1 p.2

def Runner.WF (r : Replica) (snapshotter : Bool) (issued : List WALMutation) (es : List LogEntry) :
    Runner → Prop
  | .idle => True
  | .walking cutSeq next pairs =>
    CutFree es cutSeq ∧ Captured r.nodeID issued pairs ∧
      ∀ p ∈ pairs, Engine.route R r.routeSeed r.shardCount p.1 < next
  | .captured cutSeq _ pairs => CutFree es cutSeq ∧ Captured r.nodeID issued pairs
  | .flushing _ cutSeq pairs =>
    Captured r.nodeID issued pairs ∧
      ∃ clock, .checkpoint (checkpointOf R r.nodeID pairs cutSeq clock snapshotter) ∈ es
  | .writing cutSeq pairs =>
    Captured r.nodeID issued pairs ∧
      ∃ clock, .checkpoint (checkpointOf R r.nodeID pairs cutSeq clock true) ∈ es

/-- An image that was captured for a checkpoint of the log. -/
def Backed (r : Replica) (issued : List WALMutation) (es : List LogEntry) (key : UInt64)
    (data : Bytes) : Prop :=
  ∃ pairs cutSeq clock, Captured r.nodeID issued pairs ∧
    .checkpoint (checkpointOf R r.nodeID pairs cutSeq clock true) ∈ es ∧
    encodeSnapshotImage (imageOf R r.nodeID pairs cutSeq) = .ok data ∧
    (imageOf R r.nodeID pairs cutSeq).lamportHigh = key

/-- The engine of a running node. -/
structure EngineOf (r : Replica) (e : Engine) : Prop where
  node : e.localNodeID = r.nodeID
  seed : e.routeSeed = r.routeSeed
  shards : e.shards.length = r.shardCount
  wf : e.WF R

/-- **The invariant.** -/
structure Node.Inv (r : Replica) (s : Node) (issued : List WALMutation) (es : List LogEntry)
    (acked : List WALMutation) : Prop where
  engine : EngineOf R r s.engine
  minted : ∀ m ∈ issued, Issued r.nodeID m ∧ m.counter ≤ s.engine.lamportCounter
  unique : ∀ m ∈ issued, ∀ m' ∈ issued, m.counter = m'.counter → m = m'
  held : ∀ x ∈ s.engine.contents R, x.entry.dotNodeID = r.nodeID → ∃ m ∈ issued, x = itemOf m
  writers : ∀ i, (s.writers i).WF R s.engine issued es
  distinct : ∀ i j dot, (s.writers i).pending = some dot → (s.writers j).pending = some dot → i = j
  joiners : ∀ j, (s.joiners j).WF R r s.engine
  holds : s.wal.Holds es []
  log : LogWF issued es
  header : fileHeader.length ≤ s.synced
  acked : ∀ m ∈ acked, Durable es s.synced m
  runner : s.runner.WF R r s.snapshotter issued es
  objects : ∀ key data, s.objects key = some data → Backed R r issued es key data

variable {R} {r : Replica}

/-! ### What grows -/

section Growth

variable (more : List WALMutation) (entries : List LogEntry)

theorem Writer.WF.mono {e : Engine} {w : Writer} (h : w.WF R e issued es) :
    w.WF R e (issued ++ more) (es ++ entries) := by
  cases w with
  | idle => trivial
  | inserting done todo => exact fun m hm => List.mem_append_left _ (h m hm)
  | minted done dot item todo =>
    exact ⟨fun m hm => List.mem_append_left _ (h.1 m hm), List.mem_append_left _ h.2.1, h.2.2⟩
  | flushing upTo ms => exact fun m hm => (h m hm).mono le_rfl entries

theorem Backed.mono {key : UInt64} {data : Bytes} (h : Backed R r issued es key data) :
    Backed R r (issued ++ more) (es ++ entries) key data := by
  obtain ⟨pairs, cutSeq, clock, hcap, hmem, hrest⟩ := h
  exact ⟨pairs, cutSeq, clock, hcap.mono more, List.mem_append_left _ hmem, hrest⟩

/-- Minted mutations and appended mutations leave the checkpoint in flight alone. -/
theorem Runner.WF.mono {w : Runner} (h : w.WF R r snapshotter issued es)
    (appended : List WALMutation) : w.WF R r snapshotter (issued ++ more) (es ++ appended.map .mutation) := by
  cases w with
  | idle => trivial
  | walking cutSeq next pairs => exact ⟨h.1.mutations_append _, h.2.1.mono more, h.2.2⟩
  | captured cutSeq clock pairs => exact ⟨h.1.mutations_append _, h.2.mono more⟩
  | flushing upTo cutSeq pairs =>
    exact ⟨h.1.mono more, h.2.imp fun _ hm => List.mem_append_left _ hm⟩
  | writing cutSeq pairs =>
    exact ⟨h.1.mono more, h.2.imp fun _ hm => List.mem_append_left _ hm⟩

theorem Joiner.WF.mono {e e' : Engine} (hsub : e.contents R ⊆ e'.contents R) {w : Joiner}
    (h : w.WF R r e) : w.WF R r e' := by
  cases w with
  | idle => trivial
  | running counters todo =>
    exact fun p hp => ⟨(h p hp).nodup, (h p hp).routed, (h p hp).ascending,
      fun b hb x hx => ((h p hp).foreign b hb x hx).imp_right fun hm => hsub hm⟩

end Growth

/-! ### Frame lemmas -/

variable {s : Node} {acked : List WALMutation} {e : Engine} {item : LocalItem} {dot : CausalDot} {i : ℕ}

theorem Issued.dot_nodeID (h : Issued r.nodeID (item.mutation R dot)) : dot.nodeID = r.nodeID := by
  obtain ⟨id, counter, entry, heq⟩ := h.built
  exact congrArg WALMutation.nodeID heq

namespace Node.Inv

section
variable (h : s.Inv R r issued es acked)
include h

/-- The engine moves on; a new local entry is an issued one that no call has minted and not published. -/
theorem withEngine (he : EngineOf R r e)
    (hclock : s.engine.lamportCounter ≤ e.lamportCounter) (hsub : s.engine.contents R ⊆ e.contents R)
    (hnew : ∀ x ∈ e.contents R, x ∈ s.engine.contents R ∨ (x.entry.dotNodeID = r.nodeID →
      (∃ m ∈ issued, x = itemOf m) ∧ ∀ i, (s.writers i).pending ≠ some x.entry.dot)) :
    Node.Inv R r { s with engine := e } issued es acked where
  engine := he
  minted := fun m hm => ⟨(h.minted m hm).1, UInt64.le_trans (h.minted m hm).2 hclock⟩
  unique := h.unique
  held := fun x hx hlocal => (hnew x hx).elim (fun hold => h.held x hold hlocal) fun hnew => (hnew hlocal).1
  writers := fun i => by
    have hw := h.writers i
    have hpend := fun x hx => (hnew x hx).imp_right fun hnew hlocal => (hnew hlocal).2 i
    generalize s.writers i = w at hw hpend
    cases w with
    | minted done dot item todo =>
      refine ⟨hw.1, hw.2.1, fun x hx heq => ?_⟩
      have hnode := (h.minted _ hw.2.1).1.dot_nodeID
      rcases hpend x hx with hold | hnew
      · exact hw.2.2 x hold heq
      · exact hnew ((congrArg CausalDot.nodeID heq).trans hnode) (heq ▸ rfl)
    | idle => trivial
    | inserting done todo => exact hw
    | flushing upTo ms => exact hw
  distinct := h.distinct
  joiners := fun j => (h.joiners j).mono hsub
  holds := h.holds
  log := h.log
  header := h.header
  acked := h.acked
  runner := h.runner
  objects := h.objects

theorem withWriter (i : ℕ) {w : Writer} (hw : w.WF R s.engine issued es)
    (hpending : ∀ dot, w.pending = some dot → ∀ j, j ≠ i → (s.writers j).pending ≠ some dot) :
    Node.Inv R r { s with writers := Function.update s.writers i w } issued es acked :=
  { h with
    writers := (Function.forall_update_iff _ fun _ w => Writer.WF R s.engine issued es w).mpr ⟨hw, fun j _ => h.writers j⟩
    distinct := fun j k dot hj hk => by
      simp only at hj hk
      by_cases hji : j = i <;> by_cases hki : k = i
      · rw [hji, hki]
      · subst hji
        rw [Function.update_self] at hj
        rw [Function.update_of_ne hki] at hk
        exact absurd hk (hpending dot hj k hki)
      · subst hki
        rw [Function.update_self] at hk
        rw [Function.update_of_ne hji] at hj
        exact absurd hj (hpending dot hk j hji)
      · rw [Function.update_of_ne hji] at hj
        rw [Function.update_of_ne hki] at hk
        exact h.distinct j k dot hj hk }

theorem withJoiner (j : ℕ) {w : Joiner} (hw : w.WF R r s.engine) :
    Node.Inv R r { s with joiners := Function.update s.joiners j w } issued es acked :=
  { h with
    joiners := (Function.forall_update_iff _ fun _ w => Joiner.WF R r s.engine w).mpr ⟨hw, fun k _ => h.joiners k⟩ }

theorem withRunner {w : Runner} (hw : w.WF R r s.snapshotter issued es) :
    Node.Inv R r { s with runner := w } issued es acked := { h with runner := hw }

theorem withMutations {wal : WAL} (hholds : wal.Holds (es ++ ms.map .mutation) [])
    (hms : ∀ m ∈ ms, m ∈ issued ∧ validateV2 m = .ok ()) (hshort : es.length + ms.length < 2 ^ 64) :
    Node.Inv R r { s with wal := wal } issued (es ++ ms.map .mutation) acked :=
  { h with
    writers := fun i => by simpa using (h.writers i).mono [] (ms.map .mutation)
    holds := hholds
    log := h.log.mutations_append hms hshort
    acked := fun m hm => (h.acked m hm).mono le_rfl _
    runner := by simpa using h.runner.mono [] ms
    objects := fun key data hd => by simpa using (h.objects key data hd).mono [] (ms.map .mutation) }

theorem withSynced (upTo : ℕ) (hms : ∀ m ∈ ms, Durable es upTo m) :
    Node.Inv R r { s with synced := max s.synced upTo } issued es (acked ++ ms) :=
  { h with
    header := h.header.trans (le_max_left _ _)
    acked := fun m hm => by
      rcases List.mem_append.mp hm with hm | hm
      · simpa using (h.acked m hm).mono (le_max_left _ _) []
      · simpa using (hms m hm).mono (le_max_right _ _) [] }

end

end Node.Inv

/-! ### Appending without faults -/

/-- Without faults the batch append writes the mutations up to the first invalid one. -/
theorem appendMutationsLoop_honest {w : WAL} (h : w.Holds es []) (i : ℕ) (ms : List WALMutation) :
    ∃ written, written <+: ms ∧
      (w.appendMutationsLoop i ms fun _ => .ok).1.Holds (es ++ written.map .mutation) [] ∧
      (∀ m ∈ written, validateV2 m = .ok ()) ∧
      ((w.appendMutationsLoop i ms fun _ => .ok).2 = .ok () → written = ms) := by
  induction ms generalizing w es i with
  | nil =>
    refine ⟨[], List.nil_prefix, ?_, by simp, fun _ => rfl⟩
    rw [List.map_nil, List.append_nil]
    exact h
  | cons m ms ih =>
    rw [WAL.appendMutationsLoop]
    cases hvalid : validateV2 m with
    | error err => exact ⟨[], List.nil_prefix, by simpa using h, by simp, fun hok => by cases hok⟩
    | ok u =>
      obtain ⟨written, hpre, hholds, hall, hok⟩ := ih (h.write_ok (.mutation m)) (i + 1)
      refine ⟨m :: written, List.cons_prefix_cons.mpr ⟨rfl, hpre⟩, ?_, ?_, fun h => ?_⟩
      · rw [List.append_assoc] at hholds
        exact hholds
      · rintro m' hm'
        rcases List.mem_cons.mp hm' with rfl | hm'
        · exact hvalid
        · exact hall m' hm'
      · rw [hok h]

/-- The mutations of an append are durable once the file is flushed up to its end. -/
theorem durable_of_holds {w : WAL} (h : w.Holds (es ++ ms.map .mutation) []) :
    ∀ m ∈ ms, Durable (es ++ ms.map .mutation) w.file.length m := by
  intro m hm
  obtain ⟨pre, post, rfl⟩ := List.append_of_mem hm
  refine ⟨es ++ pre.map .mutation, post.map .mutation, by simp, ?_⟩
  have hsplit : es ++ (pre ++ m :: post).map LogEntry.mutation
      = (es ++ pre.map .mutation ++ [.mutation m]) ++ post.map .mutation := by simp
  have hlen := congrArg List.length
    (records_append 0 (es ++ pre.map .mutation ++ [.mutation m]) (post.map .mutation))
  rw [List.length_append] at hlen
  rw [h.file, hsplit, List.append_nil, List.length_append, hlen]
  omega

/-! ### The engine of a step -/

theorem EngineOf.nextDot (h : EngineOf R r e) : EngineOf R r e.nextDot.2 :=
  ⟨h.node, h.seed, h.shards, h.wf⟩

theorem EngineOf.advance (h : EngineOf R r e) (c : UInt64) : EngineOf R r (e.advanceLamportTo R c) :=
  ⟨by simpa using h.node, by simpa using h.seed, by simpa using h.shards, h.wf.advance c⟩

theorem EngineOf.publish (h : EngineOf R r e) {id : EntityID}
    {entry : CRDTEntry} (hfresh : Unused R e dot) : EngineOf R r (e.publish R dot id entry) :=
  ⟨h.node, h.seed, (List.length_modify _ _ _).trans h.shards,
    (Engine.publish_spec h.wf dot id entry fun x hx => hfresh ⟨id, x⟩ hx).1⟩

theorem EngineOf.routed (h : EngineOf R r e) {k : ℕ} (hb : Batch R r e k batches) :
    ∀ b ∈ batches, e.routeShard R b.1 = k := fun b hmem => by
  rw [Engine.routeShard, h.seed, h.shards]
  exact hb.routed b hmem

theorem EngineOf.mergeShard (h : EngineOf R r e) {k : ℕ} (hb : Batch R r e k batches) :
    EngineOf R r (e.mergeShard R k batches) :=
  ⟨h.node, h.seed, (List.length_modify _ _ _).trans h.shards,
    (Engine.mergeShard_spec h.wf hb.nodup (h.routed hb) hb.ascending).1⟩

namespace Node.Inv

theorem mint (h : s.Inv R r issued es acked) (hok : Acceptable (item.mutation R s.engine.nextDot.1)) :
    Node.Inv R r { s with engine := s.engine.nextDot.2 }
        (issued ++ [item.mutation R s.engine.nextDot.1]) es acked ∧
      Unused R s.engine s.engine.nextDot.1 ∧
      ∀ j, (s.writers j).pending ≠ some s.engine.nextDot.1 := by
  have hlt : s.engine.lamportCounter < s.engine.lamportCounter + 1 := by
    have hne : s.engine.lamportCounter + 1 ≠ 0 := hok.2.1
    grind
  -- no issued mutation has the new counter
  have hnew : ∀ m ∈ issued, m.counter ≠ s.engine.lamportCounter + 1 := fun m hm heq =>
    UInt64.not_lt.mpr (h.minted m hm).2 (heq ▸ hlt)
  have hcontents : s.engine.nextDot.2.contents R = s.engine.contents R := Engine.contents_congr rfl rfl
  have hunused : Unused R s.engine s.engine.nextDot.1 := fun x hx heq => by
    obtain ⟨m, hm, rfl⟩ := h.held x hx ((congrArg CausalDot.nodeID heq).trans h.engine.node)
    have hdot := (h.minted m hm).1.dot.1
    exact hnew m hm (congrArg CausalDot.counter (hdot.symm.trans heq))
  refine ⟨?_, hunused, fun j hj => ?_⟩
  · have hstep := h.withEngine h.engine.nextDot (UInt64.le_of_lt hlt) (hcontents ▸ subset_rfl)
      fun x hx => .inl (hcontents ▸ hx)
    have hissued : Issued r.nodeID (item.mutation R s.engine.nextDot.1) :=
      ⟨⟨item.entityID, s.engine.lamportCounter + 1, item.digested R, h.engine.node ▸ rfl⟩, hok⟩
    refine
      { hstep with
        minted := fun m hm => ?_
        unique := fun m hm m' hm' heq => ?_
        held := fun x hx hlocal => ?_
        writers := fun i => by simpa using (hstep.writers i).mono [_] []
        log := ⟨fun m hm => ⟨List.mem_append_left _ (h.log.mutations m hm).1,
          (h.log.mutations m hm).2⟩, h.log.cuts, h.log.ordered, h.log.short⟩
        runner := by simpa using hstep.runner.mono [_] []
        objects := fun key data hd => by simpa using (hstep.objects key data hd).mono [_] [] }
    · rcases List.mem_append.mp hm with hm | hm
      · exact hstep.minted m hm
      · rw [List.mem_singleton.mp hm]
        exact ⟨hissued, UInt64.le_refl _⟩
    · rcases List.mem_append.mp hm with hm | hm <;> rcases List.mem_append.mp hm' with hm' | hm'
      · exact h.unique m hm m' hm' heq
      · rw [List.mem_singleton.mp hm'] at heq
        exact absurd heq (hnew m hm)
      · rw [List.mem_singleton.mp hm] at heq
        exact absurd heq.symm (hnew m' hm')
      · rw [List.mem_singleton.mp hm, List.mem_singleton.mp hm']
    · obtain ⟨m, hm, hx⟩ := hstep.held x hx hlocal
      exact ⟨m, List.mem_append_left _ hm, hx⟩
  · have hw := h.writers j
    generalize s.writers j = w at hw hj
    cases w with
    | minted done dot item' todo =>
      obtain rfl : dot = s.engine.nextDot.1 := by simpa [Writer.pending] using hj
      exact hnew _ hw.2.1 rfl
    | idle => simp [Writer.pending] at hj
    | inserting done todo => simp [Writer.pending] at hj
    | flushing upTo ms => simp [Writer.pending] at hj

theorem publish (h : s.Inv R r issued es acked) {done : List WALMutation} {todo : List LocalItem}
    (hwriter : s.writers i = .minted done dot item todo) : Node.Inv R r
      { s with
        engine := s.engine.publish R dot item.entityID (item.digested R)
        writers := Function.update s.writers i (.inserting (done ++ [item.mutation R dot]) todo) }
      issued es acked := by
  have hw := h.writers i
  rw [hwriter] at hw
  obtain ⟨hdone, hitem, hunused⟩ := hw
  have hnode := (h.minted _ hitem).1.dot_nodeID
  have hcontents := Engine.contents_publish h.engine.wf item.entityID (item.digested R)
    fun x hx => hunused ⟨item.entityID, x⟩ hx
  have hstamp : (⟨item.entityID, s.engine.stamp dot (item.digested R)⟩ : SnapshotRecord)
      = itemOf (item.mutation R dot) := by
    simp [Engine.stamp, itemOf, LocalItem.mutation, newWALMutation, h.engine.node, hnode]
  rw [hstamp] at hcontents
  -- the call gives up its dot, and then the engine takes the entry
  have hgiven := h.withWriter i (w := .inserting (done ++ [item.mutation R dot]) todo)
    (fun m hm => (List.mem_append.mp hm).elim (hdone m) fun hm => List.mem_singleton.mp hm ▸ hitem)
    (by simp [Writer.pending])
  refine hgiven.withEngine (h.engine.publish hunused) (UInt64.le_refl _) ?_ fun x hx => ?_
  · rw [hcontents]
    exact Set.subset_insert _ _
  · rw [hcontents] at hx
    rcases hx with rfl | hx
    · refine .inr fun _ => ⟨⟨_, hitem, rfl⟩, fun j hj => ?_⟩
      by_cases hji : j = i
      · subst hji
        simp [Writer.pending] at hj
      · -- two calls in flight have different dots
        simp only [Function.update_of_ne hji] at hj
        exact hji (h.distinct j i dot (hj.trans (congrArg some (congrArg₂ CausalDot.mk rfl rfl)))
          (by rw [hwriter]; rfl))
    · exact .inl hx

variable {s' : Node} {a : Action} {out : List WALMutation}

section
variable (h : s.Inv R r issued es acked)
include h

/-- **The steps of a local write.** -/
theorem stepWriter (hguard : s.Guarded R a)
    (ha : a ∈ [.mint i, .publish i, .append i, .flush i] ∨ ∃ items, a = .put i items)
    (hstep : s.stepWriter R i a (s.writers i) = some (s', out)) :
    ∃ issued' es', s'.Inv R r issued' es' (acked ++ out) := by
  generalize hw : s.writers i = w at hstep
  have hwf := h.writers i
  rw [hw] at hwf
  rw [Node.stepWriter.eq_def] at hstep
  split at hstep
  · -- the call starts
    cases hstep
    rw [List.append_nil]
    exact ⟨issued, es, h.withWriter i (by simp [Writer.WF]) (by simp [Writer.pending])⟩
  · next done item todo =>
    obtain rfl := by simpa using ha
    cases hstep
    rw [Node.Guarded, hw] at hguard
    obtain ⟨hinv, hunused, hother⟩ := h.mint hguard
    rw [List.append_nil]
    refine ⟨_, es, hinv.withWriter _ ⟨fun m hm => List.mem_append_left _ (hwf m hm), by simp, ?_⟩ ?_⟩
    · exact fun x hx => hunused x ((Engine.contents_congr (R := R) rfl rfl).subset hx)
    · intro dot hdot j _ hj
      obtain rfl : s.engine.nextDot.1 = dot := by simpa [Writer.pending] using hdot
      exact hother j hj
  · next done dot item todo =>
    cases hstep
    rw [List.append_nil]
    exact ⟨issued, es, h.publish hw⟩
  · next done =>
    obtain rfl := by simpa using ha
    rw [Node.Guarded, hw] at hguard
    obtain ⟨written, hpre, hholds, hvalid, hall⟩ := appendMutationsLoop_honest h.holds 0 done
    have hlen : es.length + written.length < 2 ^ 64 := by
      have hseq : s.wal.nextSeq.toNat = es.length := by
        rw [h.holds.nextSeq, UInt64.toNat_ofNat_of_lt' h.log.short]
      have := hpre.length_le
      simp only [hseq] at hguard
      omega
    have hinv := h.withMutations hholds
      (fun m hm => ⟨hwf m (hpre.subset hm), hvalid m hm⟩) hlen
    split at hstep
    · next wal err heq =>
      rw [heq] at hinv
      cases hstep
      rw [List.append_nil]
      exact ⟨issued, _, hinv.withWriter _ trivial (by simp [Writer.pending])⟩
    · next wal heq =>
      rw [heq] at hinv hholds hall
      obtain rfl := hall rfl
      cases hstep
      rw [List.append_nil]
      exact ⟨issued, _, hinv.withWriter _ (durable_of_holds hholds) (by simp [Writer.pending])⟩
  · next upTo ms =>
    cases hstep
    exact ⟨issued, es, (h.withSynced upTo hwf).withWriter _ trivial (by simp [Writer.pending])⟩
  · cases hstep

/-- The blocks of a foreign delta, shard by shard. -/
theorem batch_of_foreign {delta : CRDTDelta}
    (hforeign : ∀ x ∈ delta.entries, Node.Foreign R s.engine x) :
    ∀ p ∈ Node.shardBatches R s.engine delta, Batch R r s.engine p.1 p.2 := by
  intro p hp
  obtain ⟨k, -, rfl⟩ := List.mem_map.mp hp
  obtain ⟨hnd, hblocks⟩ := Engine.entityBlocks_spec (R := R) delta.entries
  have hblock : ∀ b ∈ (Engine.entityBlocks (Engine.sortedIncoming R delta.entries)).filter
      (fun b => s.engine.routeShard R b.1 = k),
      b.2 = Engine.blockOf R delta.entries b.1 ∧ s.engine.routeShard R b.1 = k := fun b hb => by
    obtain ⟨hmem, hk⟩ := List.mem_filter.mp hb
    exact ⟨((hblocks b.1 b.2).mp hmem).1, by simpa using hk⟩
  refine ⟨hnd.sublist (List.filter_sublist.map _), fun b hb => ?_, fun b hb => ?_, fun b hb x hx => ?_⟩
  · rw [← h.engine.seed, ← h.engine.shards]
    exact (hblock b hb).2
  · rw [(hblock b hb).1]
    exact Engine.ascending_blockOf _ _
  · rw [(hblock b hb).1] at hx
    have := hforeign _ (Engine.mem_of_mem_sortedIncoming (Engine.mem_blockOf.mp hx))
    rwa [Node.Foreign, h.engine.node] at this

/-- **The steps of a foreign join.** -/
theorem stepJoiner {j : ℕ} (hstep : s.stepJoiner R j a (s.joiners j) = some (s', out)) :
    s'.Inv R r issued es (acked ++ out) := by
  generalize hw : s.joiners j = w at hstep
  have hwf := h.joiners j
  rw [hw] at hwf
  rw [Node.stepJoiner.eq_def] at hstep
  split at hstep
  · next delta =>
    split at hstep
    · next hforeign =>
      cases hstep
      rw [List.append_nil]
      exact h.withJoiner j (h.batch_of_foreign hforeign)
    · cases hstep
  · next c counters todo =>
    cases hstep
    rw [List.append_nil]
    have hcontents := Engine.contents_advance (R := R) s.engine c
    have hinv := h.withEngine (h.engine.advance c) (Engine.advanceLamportTo_ge s.engine c).1
      (hcontents ▸ subset_rfl) fun x hx => .inl (hcontents ▸ hx)
    exact hinv.withJoiner j (hwf.mono (hcontents ▸ subset_rfl))
  · next k batches todo =>
    cases hstep
    rw [List.append_nil]
    have hb := hwf (k, batches) List.mem_cons_self
    obtain ⟨hsub, hnew⟩ := Engine.contents_mergeShard h.engine.wf hb.nodup (h.engine.routed hb)
      hb.ascending
    have hinv := h.withEngine (h.engine.mergeShard hb) (UInt64.le_refl _) hsub fun x hx => by
      rcases hnew x hx with hold | ⟨b, hmem, hk, hxb⟩
      · exact .inl hold
      · have := hb.foreign b hmem x.entry hxb
        rw [hk] at this
        exact this.symm.imp_right fun hne hlocal => absurd hlocal hne
    refine hinv.withJoiner j fun p hp => ?_
    exact (Joiner.WF.mono hsub hwf : Joiner.WF R r _ (.running [] ((k, batches) :: todo))) p
      (List.mem_cons_of_mem _ hp)
  · cases hstep
    rw [List.append_nil]
    exact h.withJoiner j trivial
  · cases hstep

theorem capture {next : ℕ} (hcap : Captured r.nodeID issued pairs)
    (hbelow : ∀ p ∈ pairs, Engine.route R r.routeSeed r.shardCount p.1 < next) {shard : HAMT}
    (hshard : s.engine.shards[next]? = some shard) : Captured r.nodeID issued (pairs ++ shard.toList) ∧
      ∀ p ∈ pairs ++ shard.toList, Engine.route R r.routeSeed r.shardCount p.1 < next + 1 := by
  have hwf : Engine.ShardsWF R s.engine.routeSeed s.engine.shards := h.engine.wf
  have htrie := hwf.tries shard (List.mem_of_getElem? hshard)
  -- what the shard holds, it holds under its own number
  have hmem : ∀ p ∈ shard.toList, shard.get R p.1 = p.2 ∧
      Engine.route R r.routeSeed r.shardCount p.1 = next := fun ⟨k, xs⟩ hp => by
    obtain ⟨hget, hne⟩ := (HAMT.mem_toList_iff htrie).mp hp
    have hroute := hwf.located next shard hshard k (hget ▸ hne)
    rw [h.engine.seed, h.engine.shards] at hroute
    exact ⟨hget, hroute⟩
  refine ⟨⟨?_, fun p hp => ?_, fun x hx hlocal => ?_⟩, fun p hp => ?_⟩
  · rw [List.map_append]
    refine hcap.nodup.append htrie.nodup_keys fun k hk hk' => ?_
    obtain ⟨p, hp, rfl⟩ := List.mem_map.mp hk
    obtain ⟨p', hp', heq⟩ := List.mem_map.mp hk'
    have hlt := hbelow p hp
    have hat := (hmem p' hp').2
    rw [heq] at hat
    omega
  · rcases List.mem_append.mp hp with hp | hp
    · exact hcap.ascending p hp
    · rw [← (hmem p hp).1]
      exact hwf.ascending shard (List.mem_of_getElem? hshard) p.1
  · have hsplit : recordsOf (pairs ++ shard.toList) = recordsOf pairs ++ recordsOf shard.toList :=
      List.flatMap_append
    rw [hsplit] at hx
    rcases List.mem_append.mp hx with hx | hx
    · exact hcap.issued x hx hlocal
    · obtain ⟨es', hp, hxe⟩ := mem_recordsOf.mp hx
      refine h.held x ?_ hlocal
      have hwalk : (x.entityID, es') ∈ s.engine.allPairs :=
        List.mem_flatMap.mpr ⟨shard, List.mem_of_getElem? hshard, hp⟩
      rw [Engine.mem_contents, h.engine.wf.pointGet_of_mem hwalk]
      exact hxe
  · rcases List.mem_append.mp hp with hp | hp
    · have := hbelow p hp
      omega
    · rw [(hmem p hp).2]
      omega

theorem stored
    (hwf : (Runner.writing cutSeq pairs).WF R r s.snapshotter issued es) {objects : Objects}
    (hwrite : writeSnapshotImage s.objects (imageOf R s.engine.localNodeID pairs cutSeq) = .ok objects) :
    ∀ key data, objects key = some data → Backed R r issued es key data := by
  obtain ⟨hcap, clock, hmem⟩ := hwf
  rw [h.engine.node, writeSnapshotImage] at hwrite
  split at hwrite
  · cases hwrite
  next data hencode =>
  cases hwrite
  intro key data' hkey
  by_cases heq : key = (imageOf R r.nodeID pairs cutSeq).lamportHigh
  · subst heq
    rw [Function.update_self] at hkey
    cases hkey
    exact ⟨pairs, cutSeq, clock, hcap, hmem, hencode, rfl⟩
  · rw [Function.update_of_ne heq] at hkey
    exact h.objects key data' hkey

/-- **The steps of a checkpoint.** -/
theorem stepRunner (hguard : s.Guarded R a) (hstep : s.stepRunner R a s.runner = some (s', out)) :
    ∃ es', s'.Inv R r issued es' (acked ++ out) := by
  have hseq : s.wal.nextSeq.toNat = es.length := by
    rw [h.holds.nextSeq, UInt64.toNat_ofNat_of_lt' h.log.short]
  generalize hw : s.runner = w at hstep
  have hwf := h.runner
  rw [hw] at hwf
  rw [Node.stepRunner.eq_def] at hstep
  split at hstep
  · -- the cut is read
    cases hstep
    rw [List.append_nil]
    refine ⟨es, h.withRunner ⟨⟨hseq.le, fun i c hi => ?_⟩, ⟨by simp, by simp, ?_⟩, by simp⟩⟩
    · rw [hseq]
      exact (List.getElem?_eq_some_iff.mp hi).1
    · simp [recordsOf]
  · next cutSeq next pairs =>
    split at hstep
    · cases hstep
    next shard hshard =>
    cases hstep
    rw [List.append_nil]
    exact ⟨es, h.withRunner ⟨hwf.1, h.capture hwf.2.1 hwf.2.2 hshard⟩⟩
  · next cutSeq next pairs =>
    split at hstep
    · cases hstep
      rw [List.append_nil]
      exact ⟨es, h.withRunner ⟨hwf.1, hwf.2.1⟩⟩
    · cases hstep
  · next cutSeq clockHigh pairs =>
    cases hstep
    rw [List.append_nil]
    have hnode : s.engine.localNodeID = r.nodeID := h.engine.node
    rw [Node.Guarded, hseq] at hguard
    refine ⟨es ++ [.checkpoint (checkpointOf R r.nodeID pairs cutSeq clockHigh s.snapshotter)], ?_⟩
    simp only [hnode]
    exact
      { h with
        writers := fun i => by simpa using (h.writers i).mono [] [_]
        holds := h.holds.write_ok _
        log := h.log.checkpoint_append rfl hwf.1 hguard
        acked := fun m hm => (h.acked m hm).mono le_rfl _
        runner := ⟨hwf.2, clockHigh, by simp⟩
        objects := fun key data hd => by simpa using (h.objects key data hd).mono [] [_] }
  · next upTo cutSeq pairs =>
    cases hstep
    refine ⟨es, (h.withSynced upTo (by simp)).withRunner ?_⟩
    split
    · next hsnap =>
      obtain ⟨hcap, clock, hmem⟩ := hwf
      rw [hsnap] at hmem
      exact ⟨hcap, clock, hmem⟩
    · trivial
  · next cutSeq pairs =>
    split at hstep
    · cases hstep
      rw [List.append_nil]
      exact ⟨es, h.withRunner trivial⟩
    · next objects hwrite =>
      cases hstep
      rw [List.append_nil]
      exact ⟨es, { (h.withRunner (w := .idle) trivial) with objects := h.stored hwf hwrite }⟩
  · cases hstep

/-- **One step** keeps the invariant. -/
theorem step (hguard : s.Guarded R a) (hstep : s.step R a = some (s', out)) :
    ∃ issued' es', s'.Inv R r issued' es' (acked ++ out) := by
  cases a with
  | put i items => exact h.stepWriter hguard (.inr ⟨items, rfl⟩) hstep
  | mint i => exact h.stepWriter hguard (.inl (by simp)) hstep
  | publish i => exact h.stepWriter hguard (.inl (by simp)) hstep
  | append i => exact h.stepWriter hguard (.inl (by simp)) hstep
  | flush i => exact h.stepWriter hguard (.inl (by simp)) hstep
  | join j delta => exact ⟨issued, es, h.stepJoiner hstep⟩
  | observe j => exact ⟨issued, es, h.stepJoiner hstep⟩
  | merge j => exact ⟨issued, es, h.stepJoiner hstep⟩
  | cut => exact ⟨issued, h.stepRunner hguard hstep⟩
  | capture => exact ⟨issued, h.stepRunner hguard hstep⟩
  | readClock => exact ⟨issued, h.stepRunner hguard hstep⟩
  | appendCheckpoint => exact ⟨issued, h.stepRunner hguard hstep⟩
  | flushCheckpoint => exact ⟨issued, h.stepRunner hguard hstep⟩
  | writeImage => exact ⟨issued, h.stepRunner hguard hstep⟩

end

theorem fresh (r : Replica) (snapshotter : Bool) : (Node.fresh r snapshotter).Inv R r [] [] [] where
  engine := ⟨rfl, rfl, Engine.initShards_length _ _, r.wf_boot⟩
  minted := by simp
  unique := by simp
  held := fun x hx => by
    have hempty : x ∈ r.boot.contents R := hx
    rw [r.contents_boot] at hempty
    cases hempty
  writers := fun _ => trivial
  distinct := fun i j dot hi => by simp [Node.fresh, Writer.pending] at hi
  joiners := fun _ => trivial
  holds := WAL.holds_new
  log := ⟨by simp, by simp, by simp, by simp⟩
  header := le_rfl
  acked := by simp
  runner := trivial
  objects := fun key data hd => by simp [Node.fresh] at hd

/-- **Every interleaving** of guarded steps keeps the invariant. -/
theorem run {actions : List Action}
    (hrun : Lib.run (Node.step R) (Node.fresh r snapshotter) actions = some (s, acked))
    (hguard : Meets (Node.step R) (Node.Guarded R) (Node.fresh r snapshotter) actions) :
    ∃ issued es, s.Inv R r issued es acked := by
  refine run_invariant (P := fun s acked => ∃ issued es, s.Inv R r issued es acked)
    (fun s log a s' out h hG hs => ?_) ⟨[], [], fresh r snapshotter⟩ hguard hrun
  obtain ⟨issued, es, hinv⟩ := h
  exact hinv.step hG hs

end Node.Inv

end Sovereign.Durability

import Sovereign.Durability.Boot

/-!
# A node, step by step

The calls of the bridge taken apart into the steps another goroutine can come between:

* a local write — mint a dot, publish the entry (for every item in turn), append the mutations under
  the lock of the log, flush, acknowledge;
* a foreign `Join` — observe the counters one by one, then merge shard by shard;
* a checkpoint, of which one runs at a time — read the next sequence number, capture shard by shard,
  read the clock, append the record, flush, write the image.

`Node.step` executes one step of any call in flight, so a run is an interleaving of any number of
calls.  A completed flush makes durable what had been written when its append ended; a crash leaves the
log file cut at any byte behind that, and the images that were renamed into place.

A foreign delta carries local dots only as echoes of entries the engine holds: every local dot is
minted here.  The media do not fail, so an append fails only by validation.
-/

namespace Sovereign.Durability

open Lib Sync Wal

/-- A goroutine in `PutLocal` or `PutLocals`. -/
inductive Writer where
  | idle
  | inserting (done : List WALMutation) (todo : List LocalItem)
  | minted (done : List WALMutation) (dot : CausalDot) (item : LocalItem) (todo : List LocalItem)
  | flushing (upTo : ℕ) (ms : List WALMutation)

/-- A goroutine in `Join`: counters to observe, shards to merge into. -/
inductive Joiner where
  | idle
  | running (counters : List UInt64) (todo : List (ℕ × List (EntityID × List CRDTEntry)))

/-- The goroutine that takes checkpoints. -/
inductive Runner where
  | idle
  | walking (cutSeq : UInt64) (next : ℕ) (pairs : List (EntityID × List CRDTEntry))
  | captured (cutSeq clockHigh : UInt64) (pairs : List (EntityID × List CRDTEntry))
  | flushing (upTo : ℕ) (cutSeq : UInt64) (pairs : List (EntityID × List CRDTEntry))
  | writing (cutSeq : UInt64) (pairs : List (EntityID × List CRDTEntry))

/-- A node: engine, log with the length that is durable, image store, calls in flight. -/
structure Node where
  engine : Engine
  wal : WAL
  synced : ℕ
  snapshotter : Bool
  objects : Objects
  writers : ℕ → Writer
  joiners : ℕ → Joiner
  runner : Runner

/-- A step of one of the calls in flight, or a new call. -/
inductive Action where
  | put (i : ℕ) (items : List LocalItem)
  | mint (i : ℕ)
  | publish (i : ℕ)
  | append (i : ℕ)
  | flush (i : ℕ)
  | join (j : ℕ) (delta : CRDTDelta)
  | observe (j : ℕ)
  | merge (j : ℕ)
  | cut
  | capture
  | readClock
  | appendCheckpoint
  | flushCheckpoint
  | writeImage

namespace Node

variable (R : Runtime)

def fresh (r : Replica) (snapshotter : Bool) : Node where
  engine := r.boot
  wal := ⟨fileHeader, 0⟩
  synced := fileHeader.length
  snapshotter := snapshotter
  objects := fun _ => none
  writers := fun _ => .idle
  joiners := fun _ => .idle
  runner := .idle

/-- An item of a foreign delta: a foreign dot, or the echo of an entry that is held. -/
def Foreign (e : Engine) (x : IncomingEntry) : Prop :=
  x.entry.dotNodeID ≠ e.localNodeID ∨ x.entry ∈ e.pointGet R x.entityID

instance (e : Engine) (x : IncomingEntry) : Decidable (Foreign R e x) :=
  inferInstanceAs (Decidable (_ ∨ _))

/-- The shards of a delta with their blocks. -/
def shardBatches (e : Engine) (delta : CRDTDelta) : List (ℕ × List (EntityID × List CRDTEntry)) :=
  (List.range e.shards.length).map fun i =>
    (i, (Engine.entityBlocks (Engine.sortedIncoming R delta.entries)).filter
      fun b => e.routeShard R b.1 = i)

/-- The steps of a local write.  The append takes the lock of the log once for all its mutations. -/
def stepWriter (s : Node) (i : ℕ) : Action → Writer → Option (Node × List WALMutation)
  | .put _ items, .idle => some ({ s with writers := Function.update s.writers i (.inserting [] items) }, [])
  | .mint _, .inserting done (item :: todo) =>
    some ({ s with
      engine := s.engine.nextDot.2
      writers := Function.update s.writers i (.minted done s.engine.nextDot.1 item todo) }, [])
  | .publish _, .minted done dot item todo =>
    some ({ s with
      engine := s.engine.publish R dot item.entityID (item.digested R)
      writers := Function.update s.writers i (.inserting (done ++ [item.mutation R dot]) todo) }, [])
  | .append _, .inserting done [] =>
    match s.wal.appendMutationsLoop 0 done fun _ => .ok with
    | (wal, .error _) => some ({ s with wal := wal, writers := Function.update s.writers i .idle }, [])
    | (wal, .ok ()) =>
      some ({ s with
        wal := wal
        writers := Function.update s.writers i (.flushing wal.file.length done) }, [])
  | .flush _, .flushing upTo ms =>
    some ({ s with
      synced := max s.synced upTo
      writers := Function.update s.writers i .idle }, ms)
  | _, _ => none

def stepJoiner (s : Node) (j : ℕ) : Action → Joiner → Option (Node × List WALMutation)
  | .join _ delta, .idle =>
    if ∀ x ∈ delta.entries, Foreign R s.engine x then
      some ({ s with
        joiners := Function.update s.joiners j
          (.running (delta.entries.map fun x => x.entry.dotCounter)
            (shardBatches R s.engine delta)) }, [])
    else none
  | .observe _, .running (c :: counters) todo =>
    some ({ s with
      engine := s.engine.advanceLamportTo R c
      joiners := Function.update s.joiners j (.running counters todo) }, [])
  | .merge _, .running [] ((k, batches) :: todo) =>
    some ({ s with
      engine := s.engine.mergeShard R k batches
      joiners := Function.update s.joiners j (.running [] todo) }, [])
  | .merge _, .running [] [] =>
    some ({ s with joiners := Function.update s.joiners j .idle }, [])
  | _, _ => none

def stepRunner (s : Node) : Action → Runner → Option (Node × List WALMutation)
  | .cut, .idle => some ({ s with runner := .walking s.wal.nextSeq 0 [] }, [])
  | .capture, .walking cutSeq next pairs =>
    match s.engine.shards[next]? with
    | none => none
    | some shard => some ({ s with runner := .walking cutSeq (next + 1) (pairs ++ shard.toList) }, [])
  | .readClock, .walking cutSeq next pairs =>
    if next = s.engine.shards.length then
      some ({ s with runner := .captured cutSeq s.engine.lamportCounter pairs }, [])
    else none
  | .appendCheckpoint, .captured cutSeq clockHigh pairs =>
    let ckpt := checkpointOf R s.engine.localNodeID pairs cutSeq clockHigh s.snapshotter
    match s.wal.write (.checkpoint ckpt) .ok with
    | (wal, _) => some ({ s with wal := wal, runner := .flushing wal.file.length cutSeq pairs }, [])
  | .flushCheckpoint, .flushing upTo cutSeq pairs =>
    some ({ s with
      synced := max s.synced upTo
      runner := if s.snapshotter then .writing cutSeq pairs else .idle }, [])
  | .writeImage, .writing cutSeq pairs =>
    match writeSnapshotImage s.objects (imageOf R s.engine.localNodeID pairs cutSeq) with
    | .error _ => some ({ s with runner := .idle }, [])
    | .ok objects => some ({ s with objects := objects, runner := .idle }, [])
  | _, _ => none

/-- Execute one step; it logs the mutations it acknowledges. -/
def step (s : Node) (a : Action) : Option (Node × List WALMutation) :=
  match a with
  | .put i _ | .mint i | .publish i | .append i | .flush i => s.stepWriter R i a (s.writers i)
  | .join j _ | .observe j | .merge j => s.stepJoiner R j a (s.joiners j)
  | _ => s.stepRunner R a s.runner

/-- What the boot path can accept: a minted mutation is within the limits of recovery, and the log
stays below `2 ^ 64` records. -/
def Guarded (s : Node) : Action → Prop
  | .mint i =>
    match s.writers i with
    | .inserting _ (item :: _) => Acceptable (item.mutation R s.engine.nextDot.1)
    | _ => True
  | .append i =>
    match s.writers i with
    | .inserting done _ => s.wal.nextSeq.toNat + done.length < 2 ^ 64
    | _ => True
  | .appendCheckpoint => s.wal.nextSeq.toNat + 1 < 2 ^ 64
  | _ => True

instance (s : Node) (a : Action) : Decidable (s.Guarded R a) := by
  cases a <;> simp only [Guarded] <;> try infer_instance
  all_goals split <;> infer_instance

end Node

/-! ### The steps of one call

Without other calls in between, the steps of a call do what the call does as a whole. -/

namespace Node

variable {R : Runtime} {items : List LocalItem} {todo : List (ℕ × List (EntityID × List CRDTEntry))}

variable {s : Node} {i j : ℕ}

theorem run_inserting {done : List WALMutation} (hw : s.writers i = .inserting done items) :
    run (Node.step R) s (items.flatMap fun _ => [.mint i, .publish i])
      = some ({ s with
          engine := (Bridge.insertLocals R s.engine items).1
          writers := Function.update s.writers i
            (.inserting (done ++ (Bridge.insertLocals R s.engine items).2.2) []) }, []) := by
  induction items generalizing s done with
  | nil =>
    have hself : Function.update s.writers i (.inserting (done ++ []) []) = s.writers := by
      rw [List.append_nil, ← hw, Function.update_eq_self]
    simp only [List.flatMap_nil, run, Bridge.insertLocals, hself]
  | cons item items ih =>
    set e := (s.engine.insertLocal R item.entityID (item.digested R)).2
    set m := item.mutation R s.engine.nextDot.1
    set s₁ : Node := { s with engine := e,
                              writers := Function.update s.writers i (.inserting (done ++ [m]) items) }
      with hs₁
    have htwo : run (Node.step R) s [.mint i, .publish i] = some (s₁, []) := by
      simp [run, step, hw, stepWriter, hs₁, e, m, Engine.insertLocal]
    have hrest := ih (show s₁.writers i = .inserting (done ++ [m]) items by simp [hs₁])
    rw [List.flatMap_cons]
    refine (run_append htwo hrest).trans ?_
    simp only [hs₁, Function.update_idem, List.append_assoc, List.append_nil]
    rfl

/-- **A local write without interference** is `PutLocals`. -/
theorem run_putLocals (hw : s.writers i = .idle) {objects : Option Objects} {b : Bridge} {dots : List CausalDot}
    (hput : (⟨s.engine, s.wal, objects⟩ : Bridge).putLocals R items .none = (b, dots, .ok ())) :
    run (Node.step R) s
        (.put i items :: ((items.flatMap fun _ => [.mint i, .publish i]) ++ [.append i, .flush i]))
      = some ({ s with
          engine := b.engine
          wal := b.wal
          synced := max s.synced b.wal.file.length }, (Bridge.insertLocals R s.engine items).2.2) := by
  set ms := (Bridge.insertLocals R s.engine items).2.2 with hms
  -- the append of the whole call is the locked loop and the flush
  obtain ⟨hengine, hloop⟩ : b.engine = (Bridge.insertLocals R s.engine items).1 ∧
      s.wal.appendMutationsLoop 0 ms (fun _ => .ok) = (b.wal, .ok ()) := by
    simp only [Bridge.putLocals, WAL.appendMutations, Faults.none, ← hms, Prod.mk.injEq] at hput
    obtain ⟨rfl, -, hok⟩ := hput
    cases hloop : s.wal.appendMutationsLoop 0 ms (fun _ => .ok) with
    | mk wal result =>
      cases result with
      | error err => simp [hloop] at hok
      | ok u => exact ⟨rfl, by simp⟩
  set s₁ : Node := { s with writers := Function.update s.writers i (.inserting [] items) } with hs₁
  have hput : run (Node.step R) s [.put i items] = some (s₁, []) := by
    simp [run, step, hw, stepWriter, hs₁]
  have hins := run_inserting (R := R) (show s₁.writers i = .inserting [] items by simp [hs₁])
  set s₂ : Node := { s₁ with
    engine := (Bridge.insertLocals R s₁.engine items).1
    writers := Function.update s₁.writers i
      (.inserting ([] ++ (Bridge.insertLocals R s₁.engine items).2.2) []) } with hs₂
  have hlast : run (Node.step R) s₂ [.append i, .flush i] = some ({ s with
      engine := b.engine
      wal := b.wal
      synced := max s.synced b.wal.file.length }, ms) := by
    have hself : Function.update s.writers i .idle = s.writers := by
      rw [← hw, Function.update_eq_self]
    simp [run, step, stepWriter, hs₂, hs₁, ← hms, hloop, hengine, hself]
  simpa using run_append hput (run_append hins hlast)

theorem run_putLocal (hw : s.writers i = .idle) (item : LocalItem)
    (hvalid : validateV2 (item.mutation R s.engine.nextDot.1) = .ok ()) :
    run (Node.step R) s [.put i [item], .mint i, .publish i, .append i, .flush i]
      = some ({ s with
          engine := (s.engine.insertLocal R item.entityID (item.digested R)).2
          wal := ⟨s.wal.file ++ (LogEntry.mutation (item.mutation R s.engine.nextDot.1)).encode
            s.wal.nextSeq, s.wal.nextSeq + 1⟩
          synced := max s.synced (s.wal.file ++ (LogEntry.mutation
            (item.mutation R s.engine.nextDot.1)).encode s.wal.nextSeq).length },
        [item.mutation R s.engine.nextDot.1]) := by
  rw [Engine.nextDot_fst] at hvalid ⊢
  have hput : (⟨s.engine, s.wal, none⟩ : Bridge).putLocals R [item] .none
      = (⟨(s.engine.insertLocal R item.entityID (item.digested R)).2,
          ⟨s.wal.file ++ (LogEntry.mutation (item.mutation R
              ⟨s.engine.localNodeID, s.engine.lamportCounter + 1⟩)).encode s.wal.nextSeq,
            s.wal.nextSeq + 1⟩, none⟩,
          [⟨s.engine.localNodeID, s.engine.lamportCounter + 1⟩], .ok ()) := by
    simp [Bridge.putLocals, Bridge.insertLocals, WAL.appendMutations, WAL.appendMutationsLoop,
      WAL.write, Faults.none, Engine.insertLocal, hvalid]
  exact run_putLocals hw hput

/-! #### Joins -/

theorem run_observing {counters : List UInt64} (hw : s.joiners j = .running counters todo) :
    run (Node.step R) s (counters.map fun _ => .observe j)
      = some ({ s with
          engine := counters.foldl (Engine.advanceLamportTo R) s.engine
          joiners := Function.update s.joiners j (.running [] todo) }, []) := by
  induction counters generalizing s with
  | nil =>
    have hself : Function.update s.joiners j (.running [] todo) = s.joiners := by
      rw [← hw, Function.update_eq_self]
    simp [run, hself]
  | cons c counters ih =>
    set s₁ : Node := { s with engine := s.engine.advanceLamportTo R c,
                              joiners := Function.update s.joiners j (.running counters todo) }
      with hs₁
    have hone : run (Node.step R) s [.observe j] = some (s₁, []) := by
      simp [run, step, hw, stepJoiner, hs₁]
    have hrest := ih (show s₁.joiners j = .running counters todo by simp [hs₁])
    refine (run_append hone hrest).trans ?_
    simp [hs₁]

theorem run_merging (hw : s.joiners j = .running [] todo) : run (Node.step R) s (todo.map fun _ => .merge j)
      = some ({ s with
          engine := todo.foldl (fun e p => e.mergeShard R p.1 p.2) s.engine
          joiners := Function.update s.joiners j (.running [] []) }, []) := by
  induction todo generalizing s with
  | nil =>
    have hself : Function.update s.joiners j (.running [] []) = s.joiners := by
      rw [← hw, Function.update_eq_self]
    simp [run, hself]
  | cons p todo ih =>
    set s₁ : Node := { s with engine := s.engine.mergeShard R p.1 p.2,
                              joiners := Function.update s.joiners j (.running [] todo) }
      with hs₁
    have hone : run (Node.step R) s [.merge j] = some (s₁, []) := by
      simp [run, step, hw, stepJoiner, hs₁]
    have hrest := ih (show s₁.joiners j = .running [] todo by simp [hs₁])
    refine (run_append hone hrest).trans ?_
    simp [hs₁]

theorem shards_mergeShard_range (f : ℕ → List (EntityID × List CRDTEntry)) (n : ℕ) (e : Engine) :
    (((List.range n).map fun i => (i, f i)).foldl (fun e p => e.mergeShard R p.1 p.2) e).shards
      = e.shards.mapIdx fun i s => if i < n then (Engine.perShardMerge R s (f i)).1 else s := by
  induction n with
  | zero =>
    refine List.ext_getElem? fun k => ?_
    simp [List.getElem?_mapIdx]
  | succ n ih =>
    rw [List.range_succ, List.map_append, List.foldl_append]
    simp only [List.map_cons, List.map_nil, List.foldl_cons, List.foldl_nil]
    rw [Engine.mergeShard]
    simp only [ih]
    refine List.ext_getElem? fun k => ?_
    simp only [List.getElem?_modify, List.getElem?_mapIdx]
    cases e.shards[k]? with
    | none => rfl
    | some s =>
      by_cases hk : n = k
      · subst hk
        simp
      · have : k < n + 1 ↔ k < n := by omega
        simp [hk, this]

theorem mergeShards_clock (todo : List (ℕ × List (EntityID × List CRDTEntry))) (e : Engine) :
    (todo.foldl (fun e p => e.mergeShard R p.1 p.2) e).lamportCounter = e.lamportCounter ∧
      (todo.foldl (fun e p => e.mergeShard R p.1 p.2) e).localNodeID = e.localNodeID := by
  induction todo generalizing e with
  | nil => exact ⟨rfl, rfl⟩
  | cons p todo ih => exact ih _

/-- **A foreign `Join` without interference** leaves the shards and the clock of `Join`. -/
theorem run_join (hw : s.joiners j = .idle) (delta : CRDTDelta)
    (hforeign : ∀ x ∈ delta.entries, Foreign R s.engine x) (hne : delta.entries ≠ []) :
    ∃ e : Engine,
      run (Node.step R) s
          (.join j delta :: ((delta.entries.map fun _ => .observe j)
            ++ ((shardBatches R s.engine delta).map fun _ => .merge j)) ++ [.merge j])
        = some ({ s with engine := e }, []) ∧
      e.shards = (s.engine.join R delta).shards ∧
      e.lamportCounter = (s.engine.join R delta).lamportCounter ∧
      e.localNodeID = s.engine.localNodeID := by
  set counters := delta.entries.map fun x => x.entry.dotCounter with hcounters
  set todo := shardBatches R s.engine delta with htodo
  set s₁ : Node := { s with joiners := Function.update s.joiners j (.running counters todo) } with hs₁
  have hjoin : run (Node.step R) s [.join j delta] = some (s₁, []) := by
    simp only [run, step, hw, stepJoiner, if_pos hforeign, hs₁, hcounters, htodo]
    rfl
  have hobs := run_observing (R := R) (show s₁.joiners j = .running counters todo by simp [hs₁])
  set s₂ : Node := { s₁ with
    engine := counters.foldl (Engine.advanceLamportTo R) s₁.engine
    joiners := Function.update s₁.joiners j (.running [] todo) } with hs₂
  have hmerge := run_merging (R := R) (show s₂.joiners j = .running [] todo by simp [hs₂])
  set s₃ : Node := { s₂ with
    engine := todo.foldl (fun e p => e.mergeShard R p.1 p.2) s₂.engine
    joiners := Function.update s₂.joiners j (.running [] []) } with hs₃
  have hlast : run (Node.step R) s₃ [.merge j] = some ({ s with engine := s₃.engine }, []) := by
    have hself : Function.update s.joiners j .idle = s.joiners := by rw [← hw, Function.update_eq_self]
    simp [run, step, stepJoiner, hs₃, hs₂, hs₁, hself]
  -- observing the counters is the first loop of `Join`
  have hclock : s₂.engine = s.engine.observeAll R delta.entries := by
    simp only [hs₂, hs₁, hcounters, List.foldl_map, Engine.observeAll]
  obtain ⟨hshards, -, hnode⟩ := Engine.observeAll_frame (R := R) s.engine delta.entries
  obtain ⟨hlamport, hid⟩ := mergeShards_clock (R := R) todo s₂.engine
  refine ⟨s₃.engine, ?_, ?_, ?_, hid.trans (hclock ▸ hnode)⟩
  · have := run_append hjoin (run_append hobs (run_append hmerge hlast))
    simpa [hcounters, Function.comp_def] using this
  · have hmap := shards_mergeShard_range (R := R)
      (fun i => (Engine.entityBlocks (Engine.sortedIncoming R delta.entries)).filter
        fun b => s.engine.routeShard R b.1 = i) s.engine.shards.length s₂.engine
    rw [hclock, hshards, ← hclock] at hmap
    rw [(Engine.join_of_nonempty hne).1]
    refine hmap.trans ?_
    refine List.ext_getElem? fun k => ?_
    simp only [List.getElem?_mapIdx]
    cases hk : s.engine.shards[k]? with
    | none => rfl
    | some shard =>
      have hlt : k < s.engine.shards.length := (List.getElem?_eq_some_iff.mp hk).1
      simp [hlt, Engine.perShardMerge_fst]
  · rw [(Engine.join_clock _ _).1, ← hclock]
    exact hlamport

/-! #### Checkpoints -/

theorem run_capturing {cutSeq : UInt64} {next k : ℕ} {pairs : List (EntityID × List CRDTEntry)}
    (hw : s.runner = .walking cutSeq next pairs) (hk : next + k = s.engine.shards.length) :
    run (Node.step R) s (List.replicate k .capture)
      = some ({ s with
          runner := .walking cutSeq s.engine.shards.length (pairs ++ (s.engine.shards.drop next).flatMap HAMT.toList) },
        []) := by
  induction k generalizing s next pairs with
  | zero =>
    have hnext : next = s.engine.shards.length := by omega
    subst hnext
    simp [run, ← hw]
  | succ k ih =>
    have hlt : next < s.engine.shards.length := by omega
    have hget : s.engine.shards[next]? = some s.engine.shards[next] := List.getElem?_eq_getElem hlt
    set s₁ : Node := { s with
      runner := .walking cutSeq (next + 1) (pairs ++ s.engine.shards[next].toList) } with hs₁
    have hone : run (Node.step R) s [.capture] = some (s₁, []) := by
      simp [run, step, hw, stepRunner, hget, hs₁]
    have hrest := ih (s := s₁) rfl (show next + 1 + k = s₁.engine.shards.length by simp [hs₁]; omega)
    refine (run_append hone hrest).trans ?_
    rw [List.drop_eq_getElem_cons hlt, List.flatMap_cons]
    simp [hs₁]

/-- **A checkpoint without interference** is `AppendCheckpoint`. -/
theorem run_checkpoint (s : Node) :
    let b := ((⟨s.engine, s.wal, if s.snapshotter then some s.objects else none⟩ : Bridge).appendCheckpoint R .none).1
    run (Node.step R) { s with runner := .idle } ([.cut] ++ (List.replicate s.engine.shards.length .capture
        ++ ([.readClock, .appendCheckpoint, .flushCheckpoint] ++ if s.snapshotter then [.writeImage] else [])))
      = some ({ s with
          wal := b.wal
          synced := max s.synced b.wal.file.length
          objects := b.snapshotter.getD s.objects
          runner := .idle }, []) := by
  intro b
  set s₁ : Node := { s with runner := .walking s.wal.nextSeq 0 [] } with hs₁
  have hcut : run (Node.step R) { s with runner := .idle } [.cut] = some (s₁, []) := by
    simp [run, step, stepRunner, hs₁]
  refine run_append hcut (run_append (run_capturing rfl (by simp [hs₁])) ?_)
  -- a failed image leaves the record in the log, as in the source
  cases hsnap : s.snapshotter <;>
    cases himage : writeSnapshotImage s.objects
      (imageOf R s.engine.localNodeID (s.engine.shards.flatMap HAMT.toList) s.wal.nextSeq) <;>
    simp [run, step, stepRunner, b, hs₁, hsnap, Bridge.appendCheckpoint, Engine.captureShardsPinned,
      WAL.appendCheckpoint, WAL.writeSync, WAL.write, Faults.none, Engine.allPairs, himage]

end Node

end Sovereign.Durability

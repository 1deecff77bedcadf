import Sovereign.Lib.Run
import Sovereign.Sync.Convergence

/-!
# The engine over whole histories

Any sequence of `InsertLocal`, `Join` and `SetShardCount` calls on a new engine.  Each call logs the
items it was given to store (for `InsertLocal` the stamped entry).  `Tracks` is the invariant: the
representation is well formed, the contents are exactly the logged items, and the Lamport clock is
not behind any local dot, which is why the next local dot is always new.

Two things can break it, and both really happen (`insert_or_join_can_lose_or_duplicate`):

* two different entries under one `(entity, dot)`: the second is dropped;
* an `InsertLocal` when the clock is at its last value: it wraps to counter 0, and a later wrap
  mints the same dot again.

Histories without these keep every promise (`engine_invariant`).
-/

namespace Sovereign.Sync

open Lib

inductive Call where
  | insertLocal (entityID : EntityID) (entry : CRDTEntry)
  | join (delta : CRDTDelta)
  | setShardCount (n : ℕ) (seeds : ℕ → Seed)

namespace Engine

variable (R : Runtime) {seeds : ℕ → Seed}

/-- Execute a call; the log is what it was given to store.  `none` is a panic. -/
def call (e : Engine) : Call → Option (Engine × List IncomingEntry)
  | .insertLocal id entry => some ((e.insertLocal R id entry).2, [⟨id, e.stamp e.nextDot.1 entry⟩])
  | .join delta => some (e.join R delta, delta.entries)
  | .setShardCount n seeds => (e.setShardCount R n seeds).map fun e' => (e', [])

/-- `InsertLocal` is not called when the clock is at its last value. -/
def ClockNotExhausted (e : Engine) : Call → Prop
  | .insertLocal _ _ => e.lamportCounter ≠ 0xFFFFFFFFFFFFFFFF
  | _ => True

instance (e : Engine) (c : Call) : Decidable (e.ClockNotExhausted c) := by
  cases c <;> unfold ClockNotExhausted <;> infer_instance

variable {R}

/-! ### The clock -/

theorem advanceLamportTo_ge (e : Engine) (c : UInt64) :
    e.lamportCounter ≤ (e.advanceLamportTo R c).lamportCounter ∧
      c ≤ (e.advanceLamportTo R c).lamportCounter := by
  rw [advanceLamportTo]
  split
  · next h => exact ⟨UInt64.le_refl _, h⟩
  · next h => exact ⟨UInt64.le_of_lt (UInt64.not_le.mp h), UInt64.le_refl _⟩

theorem observeAll_ge (e : Engine) (incoming : List IncomingEntry) :
    e.lamportCounter ≤ (e.observeAll R incoming).lamportCounter ∧
      ∀ x ∈ incoming, x.entry.dotCounter ≤ (e.observeAll R incoming).lamportCounter := by
  induction incoming generalizing e with
  | nil => exact ⟨UInt64.le_refl _, by simp⟩
  | cons x xs ih =>
    obtain ⟨hold, hx⟩ := advanceLamportTo_ge (R := R) e x.entry.dotCounter
    obtain ⟨hge, hall⟩ := ih (e.advanceLamportTo R x.entry.dotCounter)
    refine ⟨UInt64.le_trans hold hge, fun y hy => ?_⟩
    rcases List.mem_cons.mp hy with rfl | hy
    · exact UInt64.le_trans hx hge
    · exact hall y hy

theorem join_clock (e : Engine) (delta : CRDTDelta) :
    (e.join R delta).lamportCounter = (e.observeAll R delta.entries).lamportCounter ∧
      (e.join R delta).localNodeID = e.localNodeID := by
  obtain ⟨-, -, hnode⟩ := observeAll_frame (R := R) e delta.entries
  rw [join]
  split
  · exact ⟨rfl, hnode⟩
  · exact ⟨rfl, hnode⟩

variable {e : Engine} {stored : List IncomingEntry} {e' : Engine}

theorem setShardCount_clock {n : ℕ} (h : e.setShardCount R n seeds = some e') :
    e'.lamportCounter = e.lamportCounter ∧ e'.localNodeID = e.localNodeID := by
  rw [setShardCount] at h
  split at h
  · cases h
  · split at h <;> cases h <;> exact ⟨rfl, rfl⟩

/-! ### One call -/

variable (R) in
/-- The invariant of a history, given the items stored so far. -/
structure Tracks (e : Engine) (stored : List IncomingEntry) : Prop where
  wf : e.WF R
  contents_eq : e.contents R = {x | x ∈ stored}
  clock : ∀ x ∈ stored, x.entry.dotNodeID = e.localNodeID → x.entry.dotCounter ≤ e.lamportCounter

theorem Tracks.fresh (h : Tracks R e stored) (hclock : e.lamportCounter ≠ 0xFFFFFFFFFFFFFFFF) (id : EntityID) :
    ∀ x ∈ e.pointGet R id, x.dot ≠ e.nextDot.1 := by
  intro x hx hdot
  have hmem : (⟨id, x⟩ : IncomingEntry) ∈ stored := by
    have : (⟨id, x⟩ : IncomingEntry) ∈ e.contents R := hx
    rwa [h.contents_eq] at this
  have hnode : x.dotNodeID = e.localNodeID := congrArg CausalDot.nodeID hdot
  have hcounter : x.dotCounter = e.lamportCounter + 1 := congrArg CausalDot.counter hdot
  have hle := h.clock _ hmem hnode
  rw [hcounter] at hle
  grind

theorem Tracks.insertLocal (h : Tracks R e stored)
    (hclock : e.lamportCounter ≠ 0xFFFFFFFFFFFFFFFF) (id : EntityID) (entry : CRDTEntry) :
    Tracks R (e.insertLocal R id entry).2 (stored ++ [⟨id, e.stamp e.nextDot.1 entry⟩]) := by
  obtain ⟨hwf, hget⟩ := insertLocal_spec h.wf id entry (h.fresh hclock id)
  have hup : e.lamportCounter ≤ e.lamportCounter + 1 := by grind
  refine ⟨hwf, ?_, ?_⟩
  · ext ⟨k, x⟩
    have hold : x ∈ e.pointGet R k ↔ ⟨k, x⟩ ∈ stored := Set.ext_iff.mp h.contents_eq ⟨k, x⟩
    rw [mem_contents, hget]
    by_cases hk : k = id
    · subst hk
      simp [hold, or_comm]
    · simp [hk, hold]
  · intro x hx hnode
    rcases List.mem_append.mp hx with hx | hx
    · exact UInt64.le_trans (h.clock x hx hnode) hup
    · rw [List.mem_singleton] at hx
      subst hx
      exact UInt64.le_refl _

theorem Tracks.join (h : Tracks R e stored)
    (delta : CRDTDelta) (hkey : KeyDetermines IncomingEntry.key (stored ++ delta.entries)) :
    Tracks R (e.join R delta) (stored ++ delta.entries) := by
  obtain ⟨hlamport, hnode⟩ := join_clock (R := R) e delta
  obtain ⟨hge, hall⟩ := observeAll_ge (R := R) e delta.entries
  have hunion : e.contents R ∪ delta.carried = {x | x ∈ stored ++ delta.entries} := by
    ext x
    rw [h.contents_eq]
    simp [CRDTDelta.carried]
  refine ⟨(join_spec h.wf delta).1, ?_, fun x hx hx' => ?_⟩
  · rw [contents_join h.wf delta, hunion]
    rw [hunion]
    exact fun x hx y hy hxy => hkey x hx y hy hxy
  · rw [hlamport]
    rw [hnode] at hx'
    rcases List.mem_append.mp hx with hx | hx
    · exact UInt64.le_trans (h.clock x hx hx') hge
    · exact hall x hx

theorem Tracks.setShardCount (h : Tracks R e stored) {n : ℕ} (hset : e.setShardCount R n seeds = some e') :
    Tracks R e' stored := by
  obtain ⟨hwf, hget⟩ := setShardCount_spec h.wf hset
  obtain ⟨hlamport, hnode⟩ := setShardCount_clock hset
  refine ⟨hwf, ?_, fun x hx hx' => ?_⟩
  · rw [← h.contents_eq]
    ext x
    rw [mem_contents, hget, mem_contents]
  · rw [hlamport]
    exact h.clock x hx (hx'.trans hnode)

/-- **One call** keeps the invariant. -/
theorem Tracks.call {written : List IncomingEntry} (h : Tracks R e stored)
    (c : Call) (hclock : e.ClockNotExhausted c) (hcall : e.call R c = some (e', written))
    (hkey : KeyDetermines IncomingEntry.key (stored ++ written)) :
    Tracks R e' (stored ++ written) := by
  cases c with
  | insertLocal id entry =>
    cases hcall
    exact h.insertLocal hclock id entry
  | join delta =>
    cases hcall
    exact h.join delta hkey
  | setShardCount n seeds =>
    obtain ⟨e₁, hset, he⟩ := Option.map_eq_some_iff.mp hcall
    cases he
    rw [List.append_nil]
    exact h.setShardCount hset

end Engine

/-! ### Whole histories -/

theorem Replica.tracks_boot {R : Runtime} (r : Replica) : r.boot.Tracks R [] :=
  ⟨r.wf_boot, by simp [r.contents_boot], by simp⟩

/-- **A history** of calls keeps the invariant, as long as its items are consistently keyed. -/
theorem Engine.Tracks.run {R : Runtime} {e e' : Engine} {stored written : List IncomingEntry}
    (h : e.Tracks R stored) {calls : List Call}
    (hclock : Meets (Engine.call R) Engine.ClockNotExhausted e calls)
    (hrun : Lib.run (Engine.call R) e calls = some (e', written))
    (hkey : KeyDetermines IncomingEntry.key (stored ++ written)) :
    e'.Tracks R (stored ++ written) := by
  have hinv := run_invariant (P := fun e stored => KeyDetermines IncomingEntry.key stored →
      Engine.Tracks R e stored) (fun e stored c e' out hP hG hcall hkey => ?_) (fun _ => h) hclock hrun
  · exact hinv hkey
  · have hold : KeyDetermines IncomingEntry.key stored := fun a ha b hb =>
      hkey a (List.mem_append_left _ ha) b (List.mem_append_left _ hb)
    exact (hP hold).call c hG hcall hkey

/-- **The representation invariant.**  After any history of calls in which `(entity, dot)`
determines the entry stored and `InsertLocal` is never called with an exhausted clock: every
entity's entries are in the shard `routeShard` picks and nowhere else, strictly ascending by dot;
the engine holds exactly what was ever stored; another `SetShardCount` changes no entity's list;
`PointGet` agrees with the merged trie, and so do the Merkle roots. -/
theorem engine_invariant (R : Runtime) (r : Replica) (calls : List Call) (e : Engine)
    (written : List IncomingEntry)
    (hrun : run (Engine.call R) r.boot calls = some (e, written))
    (hkey : KeyDetermines IncomingEntry.key written)
    (hclock : Meets (Engine.call R) Engine.ClockNotExhausted r.boot calls) :
    (∀ i shard, e.shards[i]? = some shard →
      ∀ k, shard.get R k = if e.routeShard R k = i then e.pointGet R k else []) ∧
    (∀ k, Ascending compareDots CRDTEntry.dot (e.pointGet R k)) ∧
    (∀ x : IncomingEntry, x.entry ∈ e.pointGet R x.entityID ↔ x ∈ written) ∧
    (∀ n seeds e', e.setShardCount R n seeds = some e' →
      ∀ k, e'.pointGet R k = e.pointGet R k) ∧
    (∀ seed k, e.pointGet R k = (e.state R seed).get R k) ∧
    ∀ seed, e.merkleRootFromShards R = (e.state R seed).merkleRoot R := by
  have h : e.Tracks R ([] ++ written) := r.tracks_boot.run hclock hrun (by simpa using hkey)
  refine ⟨fun i shard hs k => (Engine.ShardsWF.shardsLocated h.wf).get_eq hs k, h.wf.ascending_pointGet,
    fun x => ?_, fun n seeds e' hset => (Engine.setShardCount_spec h.wf hset).2,
    fun seed k => ((Engine.state_spec h.wf seed).2 k).symm, Engine.merkleRoot_state h.wf⟩
  rw [← Engine.mem_contents, h.contents_eq]
  simp

/-- Two entities written locally around a join and a resharding. -/
def sampleCalls : List Call :=
  [.insertLocal [7] (sampleEntry 9 0 0), .join ⟨sampleNode 1, sampleItems⟩,
    .setShardCount 8 fun i => UInt64.ofNat (i + 5), .insertLocal [8] (sampleEntry 9 0 1)]

theorem engine_invariant_on_sample :
    ∃ e written, run (Engine.call .sample) (sampleReplica true).boot sampleCalls = some (e, written) ∧
      written.length = 5 ∧
      ∀ x : IncomingEntry, x.entry ∈ e.pointGet .sample x.entityID ↔ x ∈ written := by
  have hclock : Meets (Engine.call .sample) Engine.ClockNotExhausted (sampleReplica true).boot
      sampleCalls := by decide +kernel
  refine ⟨_, _, rfl, rfl, (engine_invariant .sample (sampleReplica true) sampleCalls _ _ rfl ?_
    hclock).2.2.1⟩
  unfold KeyDetermines
  decide +kernel

/-- The clock driven to its last value by a join, and two local writes that then mint one dot. -/
def exhaustingCalls : List Call :=
  [.join ⟨sampleNode 1, [⟨[9], sampleEntry 1 0xFFFFFFFFFFFFFFFF 0⟩]⟩,
    .insertLocal [7] (sampleEntry 9 0 0),
    .join ⟨sampleNode 1, [⟨[9], sampleEntry 1 0xFFFFFFFFFFFFFFFF 0⟩]⟩,
    .insertLocal [7] (sampleEntry 9 0 1)]

/-- Two entries of one entity under one dot. -/
def conflictingCalls : List Call :=
  [.join ⟨sampleNode 2, [⟨[7], sampleEntry 2 5 0⟩]⟩, .join ⟨sampleNode 2, [⟨[7], sampleEntry 2 5 1⟩]⟩]

/-- Without the two conditions a joined entry is lost, and an entity gets one dot twice. -/
theorem insert_or_join_can_lose_or_duplicate :
    (∃ e written x, run (Engine.call .sample) (sampleReplica true).boot conflictingCalls
        = some (e, written) ∧ x ∈ written ∧ x.entry ∉ e.pointGet .sample x.entityID) ∧
      ∃ e written, run (Engine.call .sample) (sampleReplica true).boot exhaustingCalls
        = some (e, written) ∧ ¬ Ascending compareDots CRDTEntry.dot (e.pointGet .sample [7]) := by
  constructor
  · exact ⟨_, _, ⟨[7], sampleEntry 2 5 1⟩, rfl, by decide +kernel, by decide +kernel⟩
  · exact ⟨_, _, rfl, by decide +kernel⟩

end Sovereign.Sync

import Sovereign.Mesh.Gossip

/-!
# What a sweep changes and what it counts

A sweep numbers batches and remembers envelopes; the engine, the caches and the settings of the
gossiper stay as they are (`Gossiper.SameStore`).  An entry of this node is counted as a miss only if
its payload is not recorded, so a sweep over recorded entries has no misses
(`antiEntropySweep_no_misses`).
-/

namespace Sovereign.Mesh

open Lib Sync Identity Attribution Receive

/-! ### What stays -/

/-- The parts of a gossiper that shipping leaves alone. -/
structure Gossiper.SameStore (g g' : Gossiper) : Prop where
  engine : g'.engine = g.engine
  cache : g'.cache = g.cache
  relay : g'.relay = g.relay
  owner : g'.owner = g.owner
  commitInFlight : g'.commitInFlight = g.commitInFlight
  batchSize : g'.batchSize = g.batchSize
  stratified : g'.stratified = g.stratified
  hybridSign : g'.hybridSign = g.hybridSign

theorem Gossiper.sweepEnvelope_eq_some {g g' : Gossiper} {n : ℕ} {pre : Bytes}
    (h : g.sweepEnvelope n = some (pre, g')) :
    g.stratified = false ∧ ∃ cache e, g.sweepEnvCache = some cache ∧ cache g.sweepEnvIdx = some e ∧
      e.env = pre ∧ { g with sweepEnvIdx := g.sweepEnvIdx + 1 } = g' := by
  unfold sweepEnvelope at h
  split at h
  · cases h
  next hflat =>
  split at h
  · cases h
  next cache hcache =>
  split at h
  · cases h
  split at h
  · cases h
  next e he =>
  split at h
  · cases h
  · cases h
    exact ⟨by simpa using hflat, cache, e, hcache, he, rfl, rfl⟩

namespace Gossiper.SameStore

variable {g g' g'' : Gossiper}

theorem refl (g : Gossiper) : g.SameStore g := ⟨rfl, rfl, rfl, rfl, rfl, rfl, rfl, rfl⟩

theorem trans (h : g.SameStore g') (h' : g'.SameStore g'') : g.SameStore g'' :=
  ⟨h'.engine.trans h.engine, h'.cache.trans h.cache, h'.relay.trans h.relay, h'.owner.trans h.owner,
    h'.commitInFlight.trans h.commitInFlight, h'.batchSize.trans h.batchSize,
    h'.stratified.trans h.stratified, h'.hybridSign.trans h.hybridSign⟩

theorem cacheSweepEnvelope (g : Gossiper) (n : ℕ) (env : Bytes) :
    g.SameStore (g.cacheSweepEnvelope n env) := by
  rw [Gossiper.cacheSweepEnvelope]
  split
  · exact refl g
  · split <;> exact ⟨rfl, rfl, rfl, rfl, rfl, rfl, rfl, rfl⟩

theorem sweepEnvelope {n : ℕ} {pre : Bytes} (h : g.sweepEnvelope n = some (pre, g')) :
    g.SameStore g' := by
  obtain ⟨-, -, -, -, -, -, rfl⟩ := sweepEnvelope_eq_some h
  exact ⟨rfl, rfl, rfl, rfl, rfl, rfl, rfl, rfl⟩

theorem transmit (h : g.SameStore g') (link : Link) (env : Bytes) (n : ℕ) :
    g.SameStore (g'.transmit link env n).gossiper := by
  rw [Gossiper.transmit]
  split <;> exact h

variable {T : Toolkit}

theorem shipSealed (sealWith : NodeIdentity → ℕ → Bytes → Option (UInt64 → Bytes)) (g : Gossiper)
    (link : Link) (events : List BuiltEvent) :
    g.SameStore (g.shipSealed T sealWith link events).gossiper := by
  rw [Gossiper.shipSealed]
  split
  · next pre g₁ hmemo => exact (sweepEnvelope hmemo).transmit _ _ _
  split
  · exact refl g
  split
  · exact refl g
  · apply transmit
    have hnext : g.SameStore { g with batchSeq := g.batchSeq + 1 } :=
      ⟨rfl, rfl, rfl, rfl, rfl, rfl, rfl, rfl⟩
    exact hnext.trans (cacheSweepEnvelope _ _ _)

theorem ship (g : Gossiper) (link : Link) (events : List BuiltEvent) :
    g.SameStore (g.ship T link events).gossiper := by
  rw [Gossiper.ship, Gossiper.shipBatch, Gossiper.shipBatchHybrid]
  (repeat' split) <;> first | exact refl g | exact shipSealed _ g link events

end Gossiper.SameStore

variable {T : Toolkit} {x : IncomingEntry} {delta : CRDTDelta}

namespace ShipLoop

theorem flush_store (st : ShipLoop) : st.gossiper.SameStore (st.flush T).gossiper := by
  rw [flush]
  split
  · exact .refl _
  · simp only
    split <;> exact Gossiper.SameStore.ship _ _ _

theorem relayForeign_store (st : ShipLoop) (x : IncomingEntry) :
    (st.relayForeign x).gossiper = st.gossiper := by
  rw [relayForeign]
  split
  · rfl
  · split
    · rfl
    · split <;> rfl

theorem packOwn_store (batchSize : ℤ) (st : ShipLoop) (x : IncomingEntry) :
    st.gossiper.SameStore (st.packOwn T batchSize x).gossiper := by
  rw [packOwn]
  split
  · split <;> exact .refl _
  · simp only
    split
    · exact flush_store (st.pack _)
    · exact .refl _

theorem step_store (batchSize : ℤ) (st : ShipLoop) (x : IncomingEntry) :
    st.gossiper.SameStore (st.step T batchSize x).gossiper := by
  rw [step]
  split
  · rw [relayForeign_store]
    exact flush_store st
  · exact packOwn_store batchSize st x

theorem foldl_store (batchSize : ℤ) (xs : List IncomingEntry) (st : ShipLoop) :
    st.gossiper.SameStore (xs.foldl (ShipLoop.step T batchSize) st).gossiper := by
  induction xs generalizing st with
  | nil => exact .refl _
  | cons x xs ih => exact (step_store batchSize st x).trans (ih _)

end ShipLoop

theorem sendOne_keeps (st : ShipLoop) (frame : Bytes) :
    (Gossiper.sendOne st frame).gossiper = st.gossiper ∧
      (Gossiper.sendOne st frame).misses = st.misses ∧ (Gossiper.sendOne st frame).pending = st.pending := by
  rw [Gossiper.sendOne]
  split <;> exact ⟨rfl, rfl, rfl⟩

theorem shipOne_store (st : ShipLoop) (x : IncomingEntry) :
    (Gossiper.shipOne T st x).gossiper = st.gossiper := by
  rw [Gossiper.shipOne]
  (repeat' split) <;> first | rfl | exact (sendOne_keeps st _).1

theorem shipBatchedDelta_store (g : Gossiper) (link : Link) (delta : CRDTDelta) (batchSize : ℤ) :
    g.SameStore (g.shipBatchedDelta T link delta batchSize).gossiper := by
  have hstart : g.SameStore { g with sweepEnvIdx := 0 } := ⟨rfl, rfl, rfl, rfl, rfl, rfl, rfl, rfl⟩
  exact hstart.trans ((ShipLoop.foldl_store _ delta.entries (.start { g with sweepEnvIdx := 0 } link)).trans
    (ShipLoop.flush_store _))

theorem shipDelta_store (g : Gossiper) (link : Link) (delta : CRDTDelta) :
    (g.shipDelta T link delta).gossiper = g := by
  have hfold : ∀ (xs : List IncomingEntry) (st : ShipLoop),
      (xs.foldl (Gossiper.shipOne T) st).gossiper = st.gossiper := by
    intro xs
    induction xs with
    | nil => exact fun st => rfl
    | cons x xs ih => exact fun st => (ih _).trans (shipOne_store st x)
  exact hfold delta.entries _

/-! ### Misses -/

/-- The payload of an entry is recorded under its entity and dot, and it is the one that was digested. -/
def Gossiper.Recorded (R : Runtime) (g : Gossiper) (x : IncomingEntry) : Prop :=
  ∃ payload, g.cache.lookup x.entityID x.entry.dot = some payload ∧
    R.sha256 payload = x.entry.payloadDigest

/-- An entry of this node has its payload recorded. -/
def Gossiper.OwnRecorded (R : Runtime) (g : Gossiper) (x : IncomingEntry) : Prop :=
  x.entry.originNodeID = g.owner.nodeID → g.Recorded R x

variable {R : Runtime}

theorem Gossiper.OwnRecorded.same {g g' : Gossiper} (hx : g.OwnRecorded R x)
    (h : g.SameStore g') : g'.OwnRecorded R x := by
  rw [OwnRecorded, Recorded, h.owner, h.cache]
  exact hx

/-- The two counters of entries that could not be packed. -/
def ShipLoop.unpacked (st : ShipLoop) : ℕ × ℕ := (st.misses, st.pending)

namespace ShipLoop

theorem flush_unpacked (st : ShipLoop) : (st.flush T).unpacked = st.unpacked := by
  rw [flush]
  split
  · rfl
  · simp only
    split <;> rfl

theorem relayForeign_unpacked (st : ShipLoop) (x : IncomingEntry) :
    (st.relayForeign x).unpacked = st.unpacked := by
  rw [relayForeign]
  split
  · rfl
  · split
    · rfl
    · split <;> rfl

theorem step_unpacked (batchSize : ℤ) (st : ShipLoop)
    (hx : st.gossiper.OwnRecorded R x) : (st.step T batchSize x).unpacked = st.unpacked := by
  rw [step]
  split
  · rw [relayForeign_unpacked, flush_unpacked]
  · next hown =>
    obtain ⟨payload, hlookup, -⟩ := hx (not_not.mp hown)
    simp only [packOwn, hlookup]
    split
    · exact flush_unpacked (st.pack _)
    · rfl

theorem foldl_unpacked (batchSize : ℤ) {xs : List IncomingEntry} (st : ShipLoop)
    (hxs : ∀ x ∈ xs, st.gossiper.OwnRecorded R x) :
    (xs.foldl (ShipLoop.step T batchSize) st).unpacked = st.unpacked := by
  induction xs generalizing st with
  | nil => rfl
  | cons x xs ih =>
    have hstep := step_unpacked (T := T) batchSize st (hxs x List.mem_cons_self)
    refine (ih _ fun y hy => ?_).trans hstep
    exact (hxs y (List.mem_cons_of_mem x hy)).same (step_store batchSize st x)

end ShipLoop

theorem shipBatchedDelta_unpacked (g : Gossiper) (link : Link) (batchSize : ℤ)
    (hdelta : ∀ x ∈ delta.entries, g.OwnRecorded R x) :
    (g.shipBatchedDelta T link delta batchSize).unpacked = (0, 0) := by
  rw [Gossiper.shipBatchedDelta, ShipLoop.flush_unpacked]
  exact ShipLoop.foldl_unpacked (R := R) _ (.start { g with sweepEnvIdx := 0 } link) hdelta

theorem shipOne_unpacked (st : ShipLoop) (hx : st.gossiper.OwnRecorded R x) :
    (Gossiper.shipOne T st x).unpacked = st.unpacked := by
  have hsend : ∀ frame, (Gossiper.sendOne st frame).unpacked = st.unpacked := fun frame =>
    Prod.ext (sendOne_keeps st frame).2.1 (sendOne_keeps st frame).2.2
  rw [Gossiper.shipOne]
  split
  · split
    · rfl
    · exact hsend _
  · next hown =>
    obtain ⟨payload, hlookup, -⟩ := hx (not_not.mp hown)
    simp only [hlookup]
    (repeat' split) <;> first | rfl | exact hsend _

theorem shipDelta_unpacked (g : Gossiper) (link : Link)
    (hdelta : ∀ x ∈ delta.entries, g.OwnRecorded R x) : (g.shipDelta T link delta).unpacked = (0, 0) := by
  have hfold : ∀ (xs : List IncomingEntry) (st : ShipLoop),
      (∀ x ∈ xs, st.gossiper.OwnRecorded R x) → (xs.foldl (Gossiper.shipOne T) st).unpacked = st.unpacked := by
    intro xs
    induction xs with
    | nil => exact fun st _ => rfl
    | cons x xs ih =>
      intro st hxs
      refine (ih _ fun y hy => ?_).trans (shipOne_unpacked st (hxs x List.mem_cons_self))
      rw [shipOne_store]
      exact hxs y (List.mem_cons_of_mem x hy)
  exact hfold delta.entries (.start g link) hdelta

/-! ### Sweeps -/

theorem sweepPeer_store (delta : CRDTDelta) (st : Sweep) (peerID : NodeID) :
    st.gossiper.SameStore (Gossiper.sweepPeer T delta st peerID).gossiper := by
  rw [Gossiper.sweepPeer]
  split
  · exact .refl _
  · simp only
    split
    · exact shipBatchedDelta_store _ _ _ _
    · rw [shipDelta_store]
      exact .refl _

theorem sweepPeer_unpacked (delta : CRDTDelta) {st : Sweep}
    (hdelta : ∀ x ∈ delta.entries, st.gossiper.OwnRecorded R x) (peerID : NodeID) :
    (Gossiper.sweepPeer T delta st peerID).payloadMisses = st.payloadMisses ∧
      (Gossiper.sweepPeer T delta st peerID).payloadPending = st.payloadPending := by
  rw [Gossiper.sweepPeer]
  split
  · exact ⟨rfl, rfl⟩
  · simp only
    split
    · have h := shipBatchedDelta_unpacked (T := T) st.gossiper (st.links peerID) st.gossiper.batchSize hdelta
      exact ⟨by rw [(Prod.mk.inj h).1, Nat.add_zero], by rw [(Prod.mk.inj h).2, Nat.add_zero]⟩
    · have h := shipDelta_unpacked (T := T) st.gossiper (st.links peerID) hdelta
      exact ⟨by rw [(Prod.mk.inj h).1, Nat.add_zero], by rw [(Prod.mk.inj h).2, Nat.add_zero]⟩

theorem sweepPeers_store (delta : CRDTDelta) (peerIDs : List NodeID) (st : Sweep) :
    st.gossiper.SameStore (peerIDs.foldl (Gossiper.sweepPeer T delta) st).gossiper := by
  induction peerIDs generalizing st with
  | nil => exact .refl _
  | cons p ps ih => exact (sweepPeer_store delta st p).trans (ih _)

/-- **A sweep changes no stored thing.** -/
theorem antiEntropySweep_store (g : Gossiper) (seed : Seed) (peerIDs : List NodeID) (links : NodeID → Link) :
    g.SameStore (g.antiEntropySweep T R seed peerIDs links).gossiper := by
  have hstart : g.SameStore g.beginRound := ⟨rfl, rfl, rfl, rfl, rfl, rfl, rfl, rfl⟩
  simp only [Gossiper.antiEntropySweep, Gossiper.generateSweepDelta_eq]
  exact hstart.trans (sweepPeers_store _ peerIDs ⟨g.beginRound, links, 0, 0, 0, 0, 0⟩)

/-- **A sweep over recorded entries misses none.** -/
theorem antiEntropySweep_no_misses {g : Gossiper} (hrecorded : ∀ x ∈ g.engine.items, g.OwnRecorded R x)
    (seed : Seed) (peerIDs : List NodeID) (links : NodeID → Link) :
    (g.antiEntropySweep T R seed peerIDs links).payloadMisses = 0 ∧
      (g.antiEntropySweep T R seed peerIDs links).payloadPending = 0 := by
  simp only [Gossiper.antiEntropySweep, Gossiper.generateSweepDelta_eq]
  have hfold : ∀ (ps : List NodeID) (st : Sweep), (∀ x ∈ g.engine.items, st.gossiper.OwnRecorded R x) →
      (ps.foldl (Gossiper.sweepPeer T ⟨g.engine.localNodeID, g.engine.items⟩) st).payloadMisses
          = st.payloadMisses ∧
        (ps.foldl (Gossiper.sweepPeer T ⟨g.engine.localNodeID, g.engine.items⟩) st).payloadPending
          = st.payloadPending := by
    intro ps
    induction ps with
    | nil => exact fun st _ => ⟨rfl, rfl⟩
    | cons p ps ih =>
      intro st hst
      obtain ⟨hmisses, hpending⟩ := sweepPeer_unpacked (T := T) ⟨g.engine.localNodeID, g.engine.items⟩ hst p
      obtain ⟨hmisses', hpending'⟩ := ih _ fun x hx => (hst x hx).same (sweepPeer_store _ st p)
      exact ⟨hmisses'.trans hmisses, hpending'.trans hpending⟩
  exact hfold peerIDs ⟨g.beginRound, links, 0, 0, 0, 0, 0⟩ hrecorded

end Sovereign.Mesh

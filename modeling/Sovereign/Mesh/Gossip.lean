import Sovereign.Receive.Stream
import Sovereign.Sync.AntiEntropy

/-!
# The gossiper

`pkg/mesh/gossip.go` and `pkg/mesh/batch.go`: the sending side of the mesh.

* `PayloadCache` — the payloads of local entries, by entity and dot; the engine keeps only digests.
* `RelayCache` — the frames of other origins, retained as they came, to be passed on unchanged.
* `Gossiper.shipBatch`, `Gossiper.shipBatchHybrid` — build, sign, number and publish one batch, or
  publish again the envelope that was built for an earlier peer of the same sweep.
* `Gossiper.shipBatchedDelta`, `Gossiper.shipDelta` — the loop over a delta.
* `Gossiper.antiEntropySweep` — one round over all peers.

A connection is a `Link`: what was published on it, and which of the coming calls of `Publish` fail.
Cap'n Proto and the signature schemes are in a `Toolkit`.  Cancellation of the context, the choice of
peers by region, the digest exchange of the stratified mode and the log lines are left out.
-/

namespace Sovereign.Mesh

open Lib Sync Identity Attribution Receive

/-! ### Caches -/

abbrev PayloadCache := EntityID → CausalDot → Option Bytes

def PayloadCache.record (c : PayloadCache) (entityID : EntityID) (dot : CausalDot) (payload : Bytes) :
    PayloadCache :=
  fun entityID' dot' => if entityID' = entityID ∧ dot' = dot then some payload else c entityID' dot'

def PayloadCache.lookup (c : PayloadCache) (entityID : EntityID) (dot : CausalDot) : Option Bytes :=
  c entityID dot

/-- `relayCache`: frames by origin and counter, and batches by origin and sequence number with the
counters they carry and the number of counters that lead to each. -/
structure RelayCache where
  m : NodeID × UInt64 → Option Bytes
  batchForward : NodeID × UInt64 → Option Bytes
  batchReverse : NodeID × UInt64 → Option UInt64
  batchRefs : NodeID × UInt64 → ℤ

namespace RelayCache

def new : RelayCache := ⟨fun _ => none, fun _ => none, fun _ => none, fun _ => 0⟩

def retain (c : RelayCache) (originNodeID : NodeID) (dotCounter : UInt64) (frame : Bytes) : RelayCache :=
  { c with m := Function.update c.m (originNodeID, dotCounter) (some frame) }

def lookup (c : RelayCache) (originNodeID : NodeID) (dotCounter : UInt64) : Option Bytes :=
  c.m (originNodeID, dotCounter)

/-- One counter of `retainBatch`: it now leads to the new batch, and an older batch that no counter
leads to any more is dropped. -/
def rebind (c : RelayCache) (originNodeID : NodeID) (originSeq dotCounter : UInt64) : RelayCache :=
  let bound (c : RelayCache) : RelayCache :=
    { c with
      batchReverse := Function.update c.batchReverse (originNodeID, dotCounter) (some originSeq)
      batchRefs := Function.update c.batchRefs (originNodeID, originSeq)
        (c.batchRefs (originNodeID, originSeq) + 1) }
  match c.batchReverse (originNodeID, dotCounter) with
  | none => bound c
  | some prevSeq =>
    if prevSeq = originSeq then c
    else
      let refs := c.batchRefs (originNodeID, prevSeq) - 1
      if refs ≤ 0 then
        bound
          { c with
            batchForward := Function.update c.batchForward (originNodeID, prevSeq) none
            batchRefs := Function.update c.batchRefs (originNodeID, prevSeq) 0 }
      else bound { c with batchRefs := Function.update c.batchRefs (originNodeID, prevSeq) refs }

def retainBatch (c : RelayCache) (originNodeID : NodeID) (originSeq : UInt64) (dotCounters : List UInt64)
    (frame : Bytes) : RelayCache :=
  if dotCounters.isEmpty then c
  else
    dotCounters.foldl (fun c dc => c.rebind originNodeID originSeq dc)
      { c with batchForward := Function.update c.batchForward (originNodeID, originSeq) (some frame) }

def lookupBatch (c : RelayCache) (originNodeID : NodeID) (dotCounter : UInt64) :
    Option (Bytes × UInt64) :=
  match c.batchReverse (originNodeID, dotCounter) with
  | none => none
  | some originSeq => (c.batchForward (originNodeID, originSeq)).map fun frame => (frame, originSeq)

end RelayCache

/-! ### What is sent -/

/-- What the sender takes from libraries: the Cap'n Proto writers and the signature schemes. -/
structure Toolkit where
  encodeEvent : DeltaEvent → Option Bytes
  encodeBatch : List DeltaEvent → Option Bytes
  /-- `SignCRDTFrame`, with a seed. -/
  signCRDTFrame : Bytes → Bytes → Option OriginSig
  /-- `SignCRDTFrame_PostQuantum`, with a private key. -/
  signPostQuantum : Bytes → FixedBytes hybridFrameSize → Option (FixedBytes pqSignatureSize)
  /-- The first 120 bytes of SHAKE-256. -/
  shake256 : Bytes → FixedBytes hybridFrameSize

structure NodeIdentity where
  nodeID : NodeID
  seed : Bytes
  pub : PublicKey
  pqPriv : Option Bytes
  pqPub : Option PQPublicKey

structure BuiltEvent where
  entityID : EntityID
  payload : Bytes
  entry : CRDTEntry
deriving DecidableEq

/-- The event as the writers are given it. -/
def BuiltEvent.deltaEvent (be : BuiltEvent) : DeltaEvent where
  version := crdtDeltaEventWireVersion
  originNodeID := some be.entry.originNodeID.bytes
  entityId := some be.entityID
  payloadDigest := some be.entry.payloadDigest.bytes
  dotNodeID := some be.entry.dotNodeID.bytes
  payloadBytes := some be.payload
  dotCounter := be.entry.dotCounter
  h3Index := be.entry.h3Index
  systemTime := be.entry.systemTime
  validTimeStart := be.entry.validTimeStart
  validTimeEnd := be.entry.validTimeEnd
  assertionTime := be.entry.assertionTime
  decisionTime := be.entry.decisionTime

def maxBatchSize : ℕ := 256

def defaultBatchSize : ℕ := 100

variable (T : Toolkit)

def buildCRDTDeltaBatch (events : List BuiltEvent) : Option Bytes :=
  T.encodeBatch (events.map BuiltEvent.deltaEvent)

def buildCRDTDeltaEvent (be : BuiltEvent) : Option Bytes := T.encodeEvent be.deltaEvent

/-- The signed envelope of a batch, up to its sequence number. -/
def NodeIdentity.sealBatch (owner : NodeIdentity) (n : ℕ) (batchWire : Bytes) : Option (UInt64 → Bytes) :=
  (T.signCRDTFrame owner.seed batchWire).map fun sig originSeq =>
    marshalBatchEnvelope owner.nodeID sig originSeq (UInt16.ofNat n) batchWire

/-- The same with the two signatures of `SignCRDTFrame_Hybrid`, both over the derived 120 bytes. -/
def NodeIdentity.sealHybrid (owner : NodeIdentity) (n : ℕ) (batchWire : Bytes) :
    Option (UInt64 → Bytes) :=
  match owner.pqPriv with
  | none => none
  | some pqPriv =>
    if batchWire.isEmpty then none
    else
      let pad := T.shake256 batchWire
      match T.signCRDTFrame owner.seed pad.bytes, T.signPostQuantum pqPriv pad with
      | some edSig, some pqSig => some fun originSeq =>
        marshalHybridFrame owner.nodeID edSig pqSig originSeq (UInt16.ofNat n) batchWire
      | _, _ => none

/-- A connection to a peer: what was published, and for the coming calls of `Publish` whether they
fail; behind the end of the list they succeed. -/
structure Link where
  sent : List Bytes
  faults : List Bool
deriving DecidableEq

def Link.publish (l : Link) (prefixed : Bytes) : Link × Bool :=
  match l.faults with
  | true :: faults => (⟨l.sent, faults⟩, false)
  | false :: faults => (⟨l.sent ++ [prefixed], faults⟩, true)
  | [] => (⟨l.sent ++ [prefixed], []⟩, true)

def Link.lossless : Link := ⟨[], []⟩

/-! ### The gossiper -/

structure SweepMemoEntry where
  env : Bytes
  n : ℕ

/-- `Gossiper`; the memo of a sweep is `none` until its first envelope. -/
structure Gossiper where
  commitInFlight : ℤ
  cache : PayloadCache
  relay : RelayCache
  owner : NodeIdentity
  engine : Engine
  batchSize : ℤ
  sweepRound : UInt64
  sweepEnvCache : Option (ℕ → Option SweepMemoEntry)
  sweepEnvRound : UInt64
  sweepEnvIdx : ℕ
  batchSeq : UInt64
  stratified : Bool
  hybridSign : Bool

namespace Gossiper

def new (owner : NodeIdentity) (engine : Engine) : Gossiper where
  commitInFlight := 0
  cache := fun _ _ => none
  relay := .new
  owner := owner
  engine := engine
  batchSize := 0
  sweepRound := 0
  sweepEnvCache := none
  sweepEnvRound := 0
  sweepEnvIdx := 0
  batchSeq := 0
  stratified := false
  hybridSign := false

def setBatchSize (g : Gossiper) (n : ℤ) : Gossiper :=
  { g with batchSize := if n < 1 then 1 else if (maxBatchSize : ℤ) < n then maxBatchSize else n }

/-- `RetainForeign`: own frames are not retained. -/
def retainForeign (g : Gossiper) (originNodeID : NodeID) (dotCounter : UInt64) (frame : Bytes) : Gossiper :=
  if originNodeID = g.owner.nodeID then g
  else { g with relay := g.relay.retain originNodeID dotCounter frame }

def retainForeignBatch (g : Gossiper) (originNodeID : NodeID) (originSeq : UInt64)
    (dotCounters : List UInt64) (frame : Bytes) : Gossiper :=
  if originNodeID = g.owner.nodeID then g
  else { g with relay := g.relay.retainBatch originNodeID originSeq dotCounters frame }

/-- `sweepEnvelope`: the envelope built for an earlier peer at this place of the sweep. -/
def sweepEnvelope (g : Gossiper) (batchLen : ℕ) : Option (Bytes × Gossiper) :=
  if g.stratified then none
  else
    match g.sweepEnvCache with
    | none => none
    | some cache =>
      if g.sweepEnvRound ≠ g.sweepRound then none
      else
        match cache g.sweepEnvIdx with
        | none => none
        | some e => if e.n ≠ batchLen then none else some (e.env, { g with sweepEnvIdx := g.sweepEnvIdx + 1 })

def cacheSweepEnvelope (g : Gossiper) (batchLen : ℕ) (prefixed : Bytes) : Gossiper :=
  if g.stratified then g
  else
    let put (cache : ℕ → Option SweepMemoEntry) := Function.update cache g.sweepEnvIdx (some ⟨prefixed, batchLen⟩)
    match g.sweepEnvCache with
    | none =>
      { g with
        sweepEnvCache := some (put fun _ => none)
        sweepEnvRound := g.sweepRound
        sweepEnvIdx := g.sweepEnvIdx + 1 }
    | some cache => { g with sweepEnvCache := some (put cache), sweepEnvIdx := g.sweepEnvIdx + 1 }

end Gossiper

inductive ShipError where
  | exceedsMaxBatchSize (n : ℕ)
  | noPQKey
  | build
  | sign
  | publish
deriving DecidableEq

/-- What a ship call leaves behind: batches and entries shipped, or an error. -/
structure Shipment where
  gossiper : Gossiper
  link : Link
  result : Except ShipError (ℕ × ℕ)

namespace Gossiper

/-- The last step of a ship call. -/
def transmit (g : Gossiper) (link : Link) (prefixed : Bytes) (n : ℕ) : Shipment :=
  match link.publish prefixed with
  | (link, false) => ⟨g, link, .error .publish⟩
  | (link, true) => ⟨g, link, .ok (1, n)⟩

/-- What the two ship calls share: an envelope of this sweep again, or a new one under the next
sequence number. -/
def shipSealed (sealWith : NodeIdentity → ℕ → Bytes → Option (UInt64 → Bytes)) (g : Gossiper) (link : Link)
    (events : List BuiltEvent) : Shipment :=
  match g.sweepEnvelope events.length with
  | some (pre, g) => g.transmit link pre events.length
  | none =>
    match buildCRDTDeltaBatch T events with
    | none => ⟨g, link, .error .build⟩
    | some batchWire =>
      match sealWith g.owner events.length batchWire with
      | none => ⟨g, link, .error .sign⟩
      | some envelope =>
        let originSeq := g.batchSeq + 1
        let prefixed := lengthPrefixFrame (envelope originSeq)
        let g := { g with batchSeq := originSeq }.cacheSweepEnvelope events.length prefixed
        g.transmit link prefixed events.length

def shipBatch (g : Gossiper) (link : Link) (events : List BuiltEvent) : Shipment :=
  if events.isEmpty then ⟨g, link, .ok (0, 0)⟩
  else if maxBatchSize < events.length then ⟨g, link, .error (.exceedsMaxBatchSize events.length)⟩
  else g.shipSealed T (NodeIdentity.sealBatch T) link events

def shipBatchHybrid (g : Gossiper) (link : Link) (events : List BuiltEvent) : Shipment :=
  if events.isEmpty then ⟨g, link, .ok (0, 0)⟩
  else if maxBatchSize < events.length then ⟨g, link, .error (.exceedsMaxBatchSize events.length)⟩
  else if g.owner.pqPriv.isNone then ⟨g, link, .error .noPQKey⟩
  else g.shipSealed T (NodeIdentity.sealHybrid T) link events

/-- The one of the two that `flush` calls. -/
def ship (g : Gossiper) (link : Link) (events : List BuiltEvent) : Shipment :=
  if g.hybridSign then g.shipBatchHybrid T link events else g.shipBatch T link events

end Gossiper

/-! ### The loop over a delta -/

/-- The local variables of `shipBatchedDelta`, with the gossiper and the connection. -/
structure ShipLoop where
  gossiper : Gossiper
  link : Link
  batch : List BuiltEvent
  seenBatch : List (NodeID × UInt64)
  shipped : ℕ
  entries : ℕ
  misses : ℕ
  relayMisses : ℕ
  pending : ℕ

namespace ShipLoop

def start (g : Gossiper) (link : Link) : ShipLoop := ⟨g, link, [], [], 0, 0, 0, 0, 0⟩

/-- `flush`: a batch that could not be shipped is left for the next sweep. -/
def flush (st : ShipLoop) : ShipLoop :=
  if st.batch.isEmpty then st
  else
    let out := st.gossiper.ship T st.link st.batch
    match out.result with
    | .error _ => { st with gossiper := out.gossiper, link := out.link, batch := [] }
    | .ok (b, e) =>
      { st with
        gossiper := out.gossiper
        link := out.link
        batch := []
        shipped := st.shipped + b
        entries := st.entries + e }

/-- An entry of another origin: its retained batch, once for each batch. -/
def relayForeign (st : ShipLoop) (x : IncomingEntry) : ShipLoop :=
  match st.gossiper.relay.lookupBatch x.entry.originNodeID x.entry.dotCounter with
  | none => { st with relayMisses := st.relayMisses + 1 }
  | some (frame, originSeq) =>
    if (x.entry.originNodeID, originSeq) ∈ st.seenBatch then st
    else
      match st.link.publish (lengthPrefixFrame frame) with
      | (link, false) => { st with link := link }
      | (link, true) =>
        { st with
          link := link
          seenBatch := (x.entry.originNodeID, originSeq) :: st.seenBatch
          shipped := st.shipped + 1 }

def pack (st : ShipLoop) (be : BuiltEvent) : ShipLoop := { st with batch := st.batch ++ [be] }

/-- An entry of this node: its payload is looked up, and a full batch is flushed. -/
def packOwn (batchSize : ℤ) (st : ShipLoop) (x : IncomingEntry) : ShipLoop :=
  match st.gossiper.cache.lookup x.entityID x.entry.dot with
  | none =>
    if 0 < st.gossiper.commitInFlight then { st with pending := st.pending + 1 }
    else { st with misses := st.misses + 1 }
  | some payload =>
    let st := st.pack ⟨x.entityID, payload, x.entry⟩
    if batchSize ≤ st.batch.length then st.flush T else st

def step (batchSize : ℤ) (st : ShipLoop) (x : IncomingEntry) : ShipLoop :=
  if x.entry.originNodeID ≠ st.gossiper.owner.nodeID then (st.flush T).relayForeign x
  else st.packOwn T batchSize x

end ShipLoop

namespace Gossiper

/-- The retained batch of an entry of another origin with its number, unless it was sent before. -/
def retainedBatch (g : Gossiper) (seenBatch : List (NodeID × UInt64)) (x : IncomingEntry) :
    Option (Bytes × UInt64) :=
  (g.relay.lookupBatch x.entry.originNodeID x.entry.dotCounter).filter fun p =>
    (x.entry.originNodeID, p.2) ∉ seenBatch

/-- The batch size as `shipBatchedDelta` takes it. -/
def clampBatchSize (batchSize : ℤ) : ℤ :=
  let batchSize := if batchSize < 1 then (defaultBatchSize : ℤ) else batchSize
  if (maxBatchSize : ℤ) < batchSize then maxBatchSize else batchSize

def shipBatchedDelta (g : Gossiper) (link : Link) (delta : CRDTDelta) (batchSize : ℤ) : ShipLoop :=
  (delta.entries.foldl (ShipLoop.step T (clampBatchSize batchSize))
    (.start { g with sweepEnvIdx := 0 } link)).flush T

def sendOne (st : ShipLoop) (frame : Bytes) : ShipLoop :=
  match st.link.publish (lengthPrefixFrame frame) with
  | (link, false) => { st with link := link }
  | (link, true) => { st with link := link, shipped := st.shipped + 1, entries := st.entries + 1 }

/-- One entry of `shipDelta`, in an envelope of its own. -/
def shipOne (st : ShipLoop) (x : IncomingEntry) : ShipLoop :=
  if x.entry.originNodeID ≠ st.gossiper.owner.nodeID then
    match st.gossiper.relay.lookup x.entry.originNodeID x.entry.dotCounter with
    | none => { st with relayMisses := st.relayMisses + 1 }
    | some frame => sendOne st frame
  else
    match st.gossiper.cache.lookup x.entityID x.entry.dot with
    | none =>
      if 0 < st.gossiper.commitInFlight then { st with pending := st.pending + 1 }
      else { st with misses := st.misses + 1 }
    | some payload =>
      match buildCRDTDeltaEvent T ⟨x.entityID, payload, x.entry⟩ with
      | none => st
      | some innerWire =>
        match T.signCRDTFrame st.gossiper.owner.seed innerWire with
        | none => st
        | some sig =>
          sendOne st (RelayEnvelope.marshal
            { innerWire := innerWire
              originSig := sig
              dotCounter := x.entry.dotCounter
              originNodeID := x.entry.originNodeID
              version := envelopeVersion
              hops := [] })

def shipDelta (g : Gossiper) (link : Link) (delta : CRDTDelta) : ShipLoop :=
  delta.entries.foldl (shipOne T) (.start g link)

end Gossiper

/-! ### A sweep -/

/-- `sweepState`, with the gossiper and the connections. -/
structure Sweep where
  gossiper : Gossiper
  links : NodeID → Link
  shippedEnvelopes : ℕ
  shippedEntries : ℕ
  payloadMisses : ℕ
  relayMisses : ℕ
  payloadPending : ℕ

namespace Gossiper

variable (R : Runtime)

/-- `generateSweepDelta` without the digest exchange: against a table of another shape, so everything
is sent. -/
def generateSweepDelta (g : Gossiper) (seed : Seed) : Option CRDTDelta :=
  (newIBLTWithSeed 1 4 seed).bind (g.engine.generateDelta R 0)

def sweepPeer (delta : CRDTDelta) (st : Sweep) (peerID : NodeID) : Sweep :=
  if peerID = st.gossiper.owner.nodeID then st
  else
    let g := st.gossiper
    let out := if 1 < g.batchSize ∨ g.hybridSign then
        g.shipBatchedDelta T (st.links peerID) delta g.batchSize
      else g.shipDelta T (st.links peerID) delta
    { gossiper := out.gossiper
      links := Function.update st.links peerID out.link
      shippedEnvelopes := st.shippedEnvelopes + out.shipped
      shippedEntries := st.shippedEntries + out.entries
      payloadMisses := st.payloadMisses + out.misses
      relayMisses := st.relayMisses + out.relayMisses
      payloadPending := st.payloadPending + out.pending }

/-- The start of a round: the envelopes of the last one are forgotten. -/
def beginRound (g : Gossiper) : Gossiper :=
  { g with
    sweepRound := g.sweepRound + 1
    sweepEnvCache := none
    sweepEnvRound := g.sweepRound + 1
    sweepEnvIdx := 0 }

/-- `AntiEntropySweep` over the given peers, in the full-delta mode. -/
def antiEntropySweep (g : Gossiper) (seed : Seed) (peerIDs : List NodeID) (links : NodeID → Link) : Sweep :=
  let g := g.beginRound
  match g.generateSweepDelta R seed with
  | none => ⟨g, links, 0, 0, 0, 0, 0⟩
  | some delta => peerIDs.foldl (sweepPeer T delta) ⟨g, links, 0, 0, 0, 0, 0⟩

theorem generateSweepDelta_eq (g : Gossiper) (seed : Seed) :
    g.generateSweepDelta R seed = some ⟨g.engine.localNodeID, g.engine.items⟩ := by
  rw [generateSweepDelta, newIBLTWithSeed, if_neg (by decide)]
  exact g.engine.generateDelta_of_config _ (.inl (by simp)) 0

end Gossiper

/-! ### Honest batches -/

variable {T}

/-- The libraries do what they are for: what Cap'n Proto writes is read back by the receiver, and what
the owner signs verifies under the owner's keys, with signatures that are not all zero. -/
structure Toolkit.Honest (T : Toolkit) (P : Platform) (owner : NodeIdentity) : Prop where
  batch : ∀ events, ∃ wire, T.encodeBatch events = some wire ∧ wire.isEmpty = false ∧
    P.capnp.decodeBatch wire = .ok events
  sign : ∀ msg, ∃ sig, T.signCRDTFrame owner.seed msg = some sig ∧ sig ≠ .zero 64 ∧
    P.crypto.verifyCRDTFrame owner.pub msg sig.bytes = true
  signPQ : ∀ pqPriv, owner.pqPriv = some pqPriv → ∃ pqPub, owner.pqPub = some pqPub ∧
    ∀ frame, ∃ sig, T.signPostQuantum pqPriv frame = some sig ∧ sig ≠ .zero pqSignatureSize ∧
      P.crypto.mldsaVerify pqPub frame sig.bytes = true
  shake : T.shake256 = P.crypto.shake256

/-- A frame with a batch of the owner, classical or hybrid, as a receiver takes it apart. -/
inductive HonestBatch (P : Platform) (owner : NodeIdentity) (seq : UInt64) (events : List BuiltEvent) :
    Bool → Bytes → Prop
  | classical {frame wire : Bytes} {sig : OriginSig} {count : UInt16}
      (henv : unmarshalBatchEnvelope frame = .ok ⟨owner.nodeID, sig, seq, count, wire⟩)
      (hsig : P.crypto.verifyCRDTFrame owner.pub wire sig.bytes = true)
      (hdec : P.capnp.decodeBatch wire = .ok (events.map BuiltEvent.deltaEvent)) :
      HonestBatch P owner seq events false frame
  | hybrid {frame wire : Bytes} {edSig : OriginSig} {pqSig : FixedBytes pqSignatureSize} {count : UInt16}
      (henv : unmarshalHybridFrame frame = .ok ⟨owner.nodeID, edSig, pqSig, seq, count, wire⟩)
      (hsig : P.crypto.verifyBatchHybrid owner.pub owner.pqPub wire edSig.bytes pqSig.bytes = true)
      (hdec : P.capnp.decodeBatch wire = .ok (events.map BuiltEvent.deltaEvent)) :
      HonestBatch P owner seq events true frame

variable {P : Platform} {owner : NodeIdentity}

/-- The bytes in front of the wire of a batch. -/
def envelopeHeaderLen (hybrid : Bool) : ℕ :=
  if hybrid then hybridEnvelopeHeaderLen else batchEnvelopeHeaderLen

theorem honestBatch_sealBatch (hT : T.Honest P owner) (events : List BuiltEvent) (n : ℕ) :
    ∃ wire envelope, buildCRDTDeltaBatch T events = some wire ∧
      owner.sealBatch T n wire = some envelope ∧
      ∀ seq, HonestBatch P owner seq events false (envelope seq) ∧
        (envelope seq).length = batchEnvelopeHeaderLen + wire.length := by
  obtain ⟨wire, hbuild, -, hdec⟩ := hT.batch (events.map BuiltEvent.deltaEvent)
  obtain ⟨sig, hsign, hne, hverify⟩ := hT.sign wire
  refine ⟨wire, fun seq => marshalBatchEnvelope owner.nodeID sig seq (UInt16.ofNat n) wire, hbuild, ?_,
    fun seq => ?_⟩
  · rw [NodeIdentity.sealBatch, hsign]
    rfl
  · refine ⟨.classical (unmarshal_marshalBatchEnvelope owner.nodeID hne seq _ wire) hverify hdec, ?_⟩
    simp [marshalBatchEnvelope, batchHeader_length, batchEnvelopeHeaderLen]
    omega

theorem honestBatch_sealHybrid (hT : T.Honest P owner) (hpriv : owner.pqPriv.isSome)
    (events : List BuiltEvent) (n : ℕ) :
    ∃ wire envelope, buildCRDTDeltaBatch T events = some wire ∧
      owner.sealHybrid T n wire = some envelope ∧
      ∀ seq, HonestBatch P owner seq events true (envelope seq) ∧
        (envelope seq).length = hybridEnvelopeHeaderLen + wire.length := by
  obtain ⟨pqPriv, hpriv⟩ := Option.isSome_iff_exists.mp hpriv
  obtain ⟨wire, hbuild, hwire, hdec⟩ := hT.batch (events.map BuiltEvent.deltaEvent)
  obtain ⟨edSig, hed, hedne, hedverify⟩ := hT.sign (T.shake256 wire).bytes
  obtain ⟨pqPub, hpub, hpq⟩ := hT.signPQ pqPriv hpriv
  obtain ⟨pqSig, hpq, hpqne, hpqverify⟩ := hpq (T.shake256 wire)
  refine ⟨wire, fun seq => marshalHybridFrame owner.nodeID edSig pqSig seq (UInt16.ofNat n) wire, hbuild,
    ?_, fun seq => ?_⟩
  · simp [NodeIdentity.sealHybrid, hpriv, hwire, hed, hpq]
  · refine ⟨.hybrid (unmarshal_marshalHybridFrame owner.nodeID hedne hpqne seq _ wire) ?_ hdec, ?_⟩
    · rw [hT.shake] at hedverify hpqverify
      simp [Crypto.verifyBatchHybrid, hwire, Crypto.verifyCRDTFrameHybrid,
        Crypto.hashBatchWireToFrame120, hpub, hedverify, hpqverify, FixedBytes.length_bytes]
    · simp [marshalHybridFrame, batchHeader_length, hybridEnvelopeHeaderLen, pqSignatureSize]
      omega

/-- The gossiper after it has shipped a new envelope. -/
def Gossiper.shippedNew (g : Gossiper) (n : ℕ) (frame : Bytes) : Gossiper :=
  { g with batchSeq := g.batchSeq + 1 }.cacheSweepEnvelope n (lengthPrefixFrame frame)

/-- The ship calls differ in the seal only, for a batch that passes their checks. -/
theorem Gossiper.ship_eq {g : Gossiper} (hpriv : g.hybridSign = true → g.owner.pqPriv.isSome)
    {events : List BuiltEvent} (hne : events ≠ []) (hmax : events.length ≤ maxBatchSize) (link : Link) :
    g.ship T link events = g.shipSealed T
      (if g.hybridSign then NodeIdentity.sealHybrid T else NodeIdentity.sealBatch T) link events := by
  have hempty : events.isEmpty = false := by simpa using hne
  cases hhybrid : g.hybridSign with
  | false => simp [ship, hhybrid, shipBatch, hempty, Nat.not_lt.mpr hmax]
  | true =>
    have hsome : g.owner.pqPriv.isNone = false := by
      simpa [Option.isSome_iff_ne_none] using hpriv hhybrid
    simp [ship, hhybrid, shipBatchHybrid, hempty, Nat.not_lt.mpr hmax, hsome]

/-- **A batch is shipped**: with no envelope to use again, the frame carries the batch under the next
sequence number. -/
theorem Gossiper.ship_new {g : Gossiper} (hT : T.Honest P g.owner)
    (hpriv : g.hybridSign = true → g.owner.pqPriv.isSome) {events : List BuiltEvent} (hne : events ≠ [])
    (hmax : events.length ≤ maxBatchSize) (hmemo : g.sweepEnvelope events.length = none) (link : Link) :
    ∃ wire frame, HonestBatch P g.owner (g.batchSeq + 1) events g.hybridSign frame ∧
      buildCRDTDeltaBatch T events = some wire ∧
      frame.length = envelopeHeaderLen g.hybridSign + wire.length ∧
      g.ship T link events
        = (g.shippedNew events.length frame).transmit link (lengthPrefixFrame frame) events.length := by
  have hsealed : ∀ {sealWith : NodeIdentity → ℕ → Bytes → Option (UInt64 → Bytes)} {wire : Bytes}
      {envelope : UInt64 → Bytes}, buildCRDTDeltaBatch T events = some wire →
      sealWith g.owner events.length wire = some envelope →
      g.shipSealed T sealWith link events = (g.shippedNew events.length (envelope (g.batchSeq + 1))).transmit
        link (lengthPrefixFrame (envelope (g.batchSeq + 1))) events.length := by
    intro sealWith wire envelope hbuild hseal
    simp only [shipSealed, hmemo, hbuild, hseal]
    rfl
  rw [ship_eq hpriv hne hmax]
  cases hhybrid : g.hybridSign with
  | false =>
    obtain ⟨wire, envelope, hbuild, hseal, hbatch⟩ :=
      honestBatch_sealBatch hT events events.length
    obtain ⟨hhonest, hlength⟩ := hbatch (g.batchSeq + 1)
    exact ⟨wire, _, hhonest, hbuild, hlength, hsealed hbuild hseal⟩
  | true =>
    obtain ⟨wire, envelope, hbuild, hseal, hbatch⟩ :=
      honestBatch_sealHybrid hT (hpriv hhybrid) events events.length
    obtain ⟨hhonest, hlength⟩ := hbatch (g.batchSeq + 1)
    exact ⟨wire, _, hhonest, hbuild, hlength, hsealed hbuild hseal⟩

/-! ### A small toolkit

A self-delimiting encoding in the place of Cap'n Proto: every byte of a string behind a one, a zero at
its end. -/

def putString (bs : Bytes) : Bytes := bs.flatMap (fun b => [1, b]) ++ [0]

def getString : Bytes → Option (Bytes × Bytes)
  | [] => none
  | [b] => if b = 0 then some ([], []) else none
  | b :: c :: bs =>
    if b = 0 then some ([], c :: bs) else (getString bs).map fun p => (c :: p.1, p.2)

theorem getString_putString (bs rest : Bytes) : getString (putString bs ++ rest) = some (bs, rest) := by
  induction bs with
  | nil => cases rest <;> simp [putString, getString]
  | cons b bs ih =>
    rw [putString] at ih
    simpa [putString, getString] using ih

def putField : Option Bytes → Bytes
  | none => [0]
  | some bs => 1 :: putString bs

def getField : Bytes → Option (Option Bytes × Bytes)
  | [] => none
  | b :: bs => if b = 0 then some (none, bs) else (getString bs).map fun p => (some p.1, p.2)

theorem getField_putField (f : Option Bytes) (rest : Bytes) :
    getField (putField f ++ rest) = some (f, rest) := by
  cases f with
  | none => simp [putField, getField]
  | some bs => simp [putField, getField, getString_putString]

def getWord (bs : Bytes) : UInt64 × Bytes := (getU64 (bs.take 8), bs.drop 8)

theorem getWord_putU64 (x : UInt64) (rest : Bytes) : getWord (putU64 x ++ rest) = (x, rest) := by
  simp [getWord]

def putEvent (ev : DeltaEvent) : Bytes :=
  putField ev.originNodeID ++ (putField ev.entityId ++ (putField ev.payloadDigest ++
    (putField ev.dotNodeID ++ (putField ev.payloadBytes ++ (putU64 ev.version.toUInt64 ++
      (putU64 ev.dotCounter ++ (putU64 ev.h3Index ++ (putU64 ev.systemTime.toUInt64 ++
        (putU64 ev.validTimeStart.toUInt64 ++ (putU64 ev.validTimeEnd.toUInt64 ++
          (putU64 ev.assertionTime.toUInt64 ++ putU64 ev.decisionTime.toUInt64)))))))))))

def getEvent (bs : Bytes) : Option (DeltaEvent × Bytes) := do
  let (originNodeID, bs) ← getField bs
  let (entityId, bs) ← getField bs
  let (payloadDigest, bs) ← getField bs
  let (dotNodeID, bs) ← getField bs
  let (payloadBytes, bs) ← getField bs
  let (version, bs) := getWord bs
  let (dotCounter, bs) := getWord bs
  let (h3Index, bs) := getWord bs
  let (systemTime, bs) := getWord bs
  let (validTimeStart, bs) := getWord bs
  let (validTimeEnd, bs) := getWord bs
  let (assertionTime, bs) := getWord bs
  let (decisionTime, bs) := getWord bs
  pure (⟨version.toUInt16, originNodeID, entityId, payloadDigest, dotNodeID, payloadBytes, dotCounter,
    h3Index, systemTime.toInt64, validTimeStart.toInt64, validTimeEnd.toInt64, assertionTime.toInt64,
    decisionTime.toInt64⟩, bs)

theorem getEvent_putEvent (ev : DeltaEvent) (rest : Bytes) :
    getEvent (putEvent ev ++ rest) = some (ev, rest) := by
  simp [getEvent, putEvent, List.append_assoc, getField_putField, getWord_putU64]

def putEvents : List DeltaEvent → Bytes
  | [] => [0]
  | ev :: events => 1 :: (putEvent ev ++ putEvents events)

def getEvents : ℕ → Bytes → Option (List DeltaEvent)
  | fuel + 1, b :: bs =>
    if b = 0 then some []
    else (getEvent bs).bind fun p => (getEvents fuel p.2).map (p.1 :: ·)
  | _, _ => none

theorem getEvents_putEvents (events : List DeltaEvent) {fuel : ℕ} (hfuel : events.length < fuel) :
    getEvents fuel (putEvents events) = some events := by
  induction events generalizing fuel with
  | nil =>
    obtain ⟨fuel, rfl⟩ : ∃ n, fuel = n + 1 := ⟨fuel - 1, by simp at hfuel; omega⟩
    simp [putEvents, getEvents]
  | cons ev events ih =>
    obtain ⟨fuel, rfl⟩ : ∃ n, fuel = n + 1 := ⟨fuel - 1, by omega⟩
    have hrest := ih (by simpa using hfuel)
    simp [putEvents, getEvents, getEvent_putEvent, hrest]

theorem length_lt_putEvents (events : List DeltaEvent) : events.length < (putEvents events).length := by
  induction events with
  | nil => simp [putEvents]
  | cons ev events ih =>
    simp only [putEvents, List.length_cons, List.length_append]
    omega

/-- The small toolkit: every signature is the same. -/
def Toolkit.sample : Toolkit where
  encodeEvent := fun ev => some (putEvent ev)
  encodeBatch := fun events => some (putEvents events)
  signCRDTFrame := fun _ _ => some (.copyFrom 64 [1])
  signPostQuantum := fun _ _ => some (.copyFrom pqSignatureSize [1])
  shake256 := fun _ => .zero _

/-- The receiver's side of it. -/
def Capnp.selfDelimiting : Capnp where
  decodeEvent := fun wire =>
    match getEvent wire with
    | some (ev, _) => .ok ev
    | none => .error .unmarshal
  decodeBatch := fun wire =>
    match getEvents wire.length wire with
    | some events => .ok events
    | none => .error .unmarshal

/-- The small platform with this encoding, where the given keys sign. -/
def wirePlatform (signers : List PublicKey) : Platform :=
  { Platform.sample signers with capnp := Capnp.selfDelimiting }

theorem honest_sample {signers : List PublicKey} {owner : NodeIdentity} (hpub : owner.pub ∈ signers)
    (hpriv : owner.pqPriv = none) : Toolkit.sample.Honest (wirePlatform signers) owner where
  batch := fun events => by
    refine ⟨putEvents events, rfl, ?_, ?_⟩
    · cases events <;> rfl
    · simp [wirePlatform, Capnp.selfDelimiting, getEvents_putEvents events (length_lt_putEvents events)]
  sign := fun msg => by
    refine ⟨.copyFrom 64 [1], rfl, by decide, ?_⟩
    simp [wirePlatform, Platform.sample, Crypto.verifyCRDTFrame, hpub]
  signPQ := fun pqPriv h => by
    rw [hpriv] at h
    cases h
  shake := rfl

end Sovereign.Mesh

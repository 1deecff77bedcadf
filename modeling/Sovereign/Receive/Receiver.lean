import Sovereign.Admission.Bucket
import Sovereign.Attribution.Envelope
import Sovereign.Sync.Reconstruct

/-!
# The receive pipeline

`pkg/receive/receiver.go`: the three handlers of inbound frames.  Each is a sequence of gates, the
cheapest first, and each gate may end the call with its own verdict:

* `Receiver.handleFrame` — one relayed event: framing, rate gate on the last hop's key, clock gate
  (`IngressHLCScalarCap.Admit`, which also advances the engine's clock), hop signatures, directory,
  origin signature, header against inner fields, apply;
* `Receiver.handleBatchFrame` — a batch: framing, rate gate on the named origin, directory, signature,
  apply;
* `Receiver.handleHybridFrame` — the same with two signatures, only if `hybridVerify` is set.

A handler takes the receiver and returns it changed, with the verdict, the reason of a drop and the
calls it makes to the hooks (`Effect`).  The wall clock is read through `Clocks`, one value for each
of the two reads.
-/

namespace Sovereign.Receive

open Lib Sync Identity Attribution Admission

/-- What the pipeline takes from libraries. -/
structure Platform where
  runtime : Runtime
  capnp : Capnp
  crypto : Crypto
  /-- The EWMA of the rate gate, on float64 bits. -/
  peerRate : UInt64 → UInt64 → UInt64

/-- The wall clock as the receiver and the clock gate read it during one call, in microseconds. -/
structure Clocks where
  receiver : Int64
  cap : Int64

inductive Verdict where
  | accept
  | dropMalformed
  | dropRate
  | dropClock
  | dropDepth
  | dropVerify
deriving DecidableEq

inductive GateFieldError where
  | decode (err : DecodeError)
  | originUnread
  | originLength (length : ℕ)
deriving DecidableEq

inductive CrossCheckError where
  | inner (err : GateFieldError)
  | dotCounter (header inner : UInt64)
  | originNodeID (header inner : NodeID)
deriving DecidableEq

inductive LastHopError where
  | noHops
  | shortHeader
  | unsupportedVersion (ver : UInt16)
  | shortHops
deriving DecidableEq

/-- Which batch handler `rateDropReason` reports for. -/
inductive BatchKind where
  | batch
  | hybridBatch
deriving DecidableEq

inductive DropReason where
  | envelope (err : EnvelopeError)
  | lastHop (err : LastHopError)
  | gateFields (err : GateFieldError)
  | peerBudget
  | byzantineFuture
  | openFailed (err : EnvelopeError)
  | directoryMiss (originNodeID : NodeID)
  | originSignature
  | hybridSignature
  | crossCheck (err : CrossCheckError)
  | applyRejected (err : ApplyError)
  | batchEnvelope (err : BatchError)
  | batchRate (kind : BatchKind) (originNodeID : NodeID) (detail : Option (UInt64 × UInt64)) (drops : UInt64)
  | hybridVerifyOff
deriving DecidableEq

/-- A call of one of the hooks. -/
inductive Effect where
  | clockAdvance (post : UInt64)
  | retain (originNodeID : NodeID) (dotCounter : UInt64) (frame : Bytes)
  | retainBatch (originNodeID : NodeID) (originSeq : UInt64) (dots : List UInt64) (frame : Bytes)
  | hybridAccept
deriving DecidableEq

structure Receiver where
  bucket : PeerBucket
  dir : Directory
  engine : Engine
  maxHops : ℕ
  hybridVerify : Bool
  rateDropSeen : NodeID → UInt64

/-- `NewReceiver`, with its budget in nanoseconds. -/
def Receiver.new (bucket : PeerBucket) (dir : Directory) (engine : Engine) (budget : ℤ) : Receiver :=
  ⟨bucket, dir, engine, maxHopsForBudget budget, false, fun _ => 0⟩

structure Outcome where
  receiver : Receiver
  verdict : Verdict
  reason : Option DropReason
  effects : List Effect

def Receiver.drop (r : Receiver) (v : Verdict) (reason : DropReason) : Outcome := ⟨r, v, some reason, []⟩

variable (P : Platform)

/-! ### Gate fields -/

def readGateFieldsFromCapnp (innerWire : Bytes) : Except GateFieldError (UInt64 × NodeID) :=
  match P.capnp.decodeEvent innerWire with
  | .error err => .error (.decode err)
  | .ok ev =>
    match ev.originNodeID with
    | none => .error .originUnread
    | some origin =>
      if h : origin.length = 16 then .ok (ev.dotCounter, ⟨origin, h⟩)
      else .error (.originLength origin.length)

/-- `readGateFields`: from the header of version 3, else from the inner wire. -/
def readGateFields (env : RelayEnvelope) : Except GateFieldError (UInt64 × NodeID) :=
  if env.version = envelopeVersion then .ok (env.dotCounter, env.originNodeID)
  else readGateFieldsFromCapnp P env.innerWire

def crossCheckGateFields (env : RelayEnvelope) (verifiedInner : Bytes) : Except CrossCheckError Unit :=
  match readGateFieldsFromCapnp P verifiedInner with
  | .error err => .error (.inner err)
  | .ok (dotCounter, originNodeID) =>
    if env.dotCounter ≠ dotCounter then .error (.dotCounter env.dotCounter dotCounter)
    else if env.originNodeID ≠ originNodeID then .error (.originNodeID env.originNodeID originNodeID)
    else .ok ()

def readLastHop (frame : Bytes) (hops : ℕ) : Except LastHopError (PublicKey × Int64) :=
  if hops = 0 then .error .noHops
  else if frame.length < 8 then .error .shortHeader
  else
    let ver := UInt16.ofNat (getLE (slice frame 0 2))
    let innerLen := getLE (slice frame 4 4)
    match headerLenForVersion ver with
    | none => .error (.unsupportedVersion ver)
    | some hdrLen =>
      let lastBase := hdrLen + innerLen + (hops - 1) * hopSize
      if frame.length < lastBase + hopSize then .error .shortHops
      else .ok ((readHop frame lastBase).relayPub, (readHop frame lastBase).wallUSec)

/-! ### The clock gate -/

/-- `maxDriftEpsilon`, in microseconds. -/
def maxDriftEpsilon : Int64 := 2000

/-- `IngressHLCScalarCap.Admit`: refuse a timestamp too far ahead, else advance the clock.  The
difference is that of `int64`, which wraps. -/
def hlcAdmit (e : Engine) (localPhysical incomingPhysical : Int64) (incomingLogical : UInt64) :
    Option Engine :=
  if maxDriftEpsilon < incomingPhysical - localPhysical then none
  else some (e.advanceLamportTo P.runtime incomingLogical)

/-! ### The handlers -/

/-- The call of `onClockAdvance` at the end of an accepted frame. -/
def clockEffect (preAdvance : UInt64) (e : Engine) : List Effect :=
  if preAdvance < e.lamportCounter then [.clockAdvance e.lamportCounter] else []

/-- The origin signature of a relayed event or a batch; under `hybridVerify` a classical frame has no
ML-DSA signature and fails. -/
def originVerified (r : Receiver) (originPub : PublicKey) (msg : Bytes) (sig : OriginSig) : Bool :=
  if r.hybridVerify then P.crypto.verifyCRDTFrameHybrid originPub none msg sig.bytes []
  else P.crypto.verifyCRDTFrame originPub msg sig.bytes

/-- The reason that goes with a failed `originVerified`. -/
def signatureReason (r : Receiver) : DropReason :=
  if r.hybridVerify then .hybridSignature else .originSignature

namespace Receiver

/-- `HandleFrame` behind the clock gate. -/
def openAndApply (r : Receiver) (preAdvance : UInt64) (env : RelayEnvelope) (dotCounter : UInt64)
    (originNodeID : NodeID) (frame : Bytes) : Outcome :=
  match env.openHops P.crypto r.maxHops with
  | .error .hopBoundExceeded => r.drop .dropDepth (.envelope .hopBoundExceeded)
  | .error err => r.drop .dropVerify (.openFailed err)
  | .ok verifiedInner =>
    match r.dir.lookup originNodeID with
    | none => r.drop .dropVerify (.directoryMiss originNodeID)
    | some originPub =>
      if !originVerified P r originPub verifiedInner env.originSig then
        r.drop .dropVerify (signatureReason r)
      else
        match (if env.version = envelopeVersion then crossCheckGateFields P env verifiedInner
          else .ok ()) with
        | .error err => r.drop .dropVerify (.crossCheck err)
        | .ok () =>
          match r.engine.applyCRDTDeltaEvent P.runtime P.capnp verifiedInner with
          | .error err => r.drop .dropVerify (.applyRejected err)
          | .ok engine =>
            ⟨{ r with engine := engine }, .accept, none,
              clockEffect preAdvance engine ++ [.retain originNodeID dotCounter frame]⟩

/-- `HandleFrame` behind the rate gate: the clock gate, with the time of the last hop if there is
one. -/
def admitAndOpen (r : Receiver) (now : Clocks) (physUSec : Int64) (env : RelayEnvelope)
    (dotCounter : UInt64) (originNodeID : NodeID) (frame : Bytes) : Outcome :=
  match hlcAdmit P r.engine now.cap physUSec dotCounter with
  | none => r.drop .dropClock .byzantineFuture
  | some engine =>
    openAndApply P { r with engine := engine } r.engine.lamportCounter env dotCounter originNodeID frame

def handleFrame (r : Receiver) (now : Clocks) (frame : Bytes) : Outcome :=
  match unmarshalRelayEnvelope frame with
  | .error err => r.drop .dropMalformed (.envelope err)
  | .ok env =>
    if env.hops.length = 0 then
      match readGateFields P env with
      | .error err => r.drop .dropMalformed (.gateFields err)
      | .ok (dotCounter, originNodeID) =>
        admitAndOpen P r now now.receiver env dotCounter originNodeID frame
    else
      match readLastHop frame env.hops.length with
      | .error err => r.drop .dropMalformed (.lastHop err)
      | .ok (lastHopPub, lastHopWall) =>
        match readGateFields P env with
        | .error err => r.drop .dropMalformed (.gateFields err)
        | .ok (dotCounter, originNodeID) =>
          match r.bucket.accept P.peerRate lastHopPub.bytes dotCounter with
          | (bucket, .drop) => { r with bucket := bucket }.drop .dropRate .peerBudget
          | (bucket, .keep) =>
            admitAndOpen P { r with bucket := bucket } now lastHopWall env dotCounter originNodeID frame

/-- The key under which a batch is charged: the origin, padded with zeros. -/
def rateKey (originNodeID : NodeID) : Bytes := originNodeID.bytes ++ List.replicate 16 0

/-- `rateDropReason`: the first eight drops of an origin and every thousandth carry the details. -/
def rateDrop (r : Receiver) (kind : BatchKind) (originNodeID : NodeID) (offendingSeq : UInt64) : Outcome :=
  let remaining := r.bucket.budget (rateKey originNodeID)
  let n := r.rateDropSeen originNodeID + 1
  { r with rateDropSeen := Function.update r.rateDropSeen originNodeID n }.drop .dropRate
    (.batchRate kind originNodeID (if n ≤ 8 ∨ n % 1000 = 0 then some (offendingSeq, remaining) else none)
      n)

/-- The call of `onAcceptRelayBatch`, if the dots can be read. -/
def retainEffect (batchWire : Bytes) (originSeq : UInt64) (frame : Bytes) : List Effect :=
  match inspectBatchDots P.runtime P.capnp batchWire with
  | .error _ => []
  | .ok (batchOrigin, dots) => [.retainBatch batchOrigin originSeq dots frame]

/-- The apply step of a batch whose signature was checked. -/
def applyBatch (r : Receiver) (batchWire : Bytes) (originSeq : UInt64) (frame : Bytes)
    (accepted : List Effect) : Outcome :=
  match r.engine.applyCRDTDeltaBatch P.runtime P.capnp batchWire with
  | .error err => r.drop .dropVerify (.applyRejected err)
  | .ok engine =>
    ⟨{ r with engine := engine }, .accept, none,
      retainEffect P batchWire originSeq frame ++ (accepted ++ clockEffect r.engine.lamportCounter engine)⟩

def handleBatchFrame (r : Receiver) (frame : Bytes) : Outcome :=
  match unmarshalBatchEnvelope frame with
  | .error .unsigned => r.drop .dropVerify (.batchEnvelope .unsigned)
  | .error .malformed => r.drop .dropMalformed (.batchEnvelope .malformed)
  | .ok env =>
    match r.bucket.accept P.peerRate (rateKey env.originNodeID) env.originSeq with
    | (bucket, .drop) => { r with bucket := bucket }.rateDrop .batch env.originNodeID env.originSeq
    | (bucket, .keep) =>
      let r := { r with bucket := bucket }
      match r.dir.lookup env.originNodeID with
      | none => r.drop .dropVerify (.directoryMiss env.originNodeID)
      | some originPub =>
        if !originVerified P r originPub env.batchWire env.originSig then
          r.drop .dropVerify (signatureReason r)
        else applyBatch P r env.batchWire env.originSeq frame []

def handleHybridFrame (r : Receiver) (frame : Bytes) : Outcome :=
  if !r.hybridVerify then r.drop .dropVerify .hybridVerifyOff
  else
    match unmarshalHybridFrame frame with
    | .error .unsigned => r.drop .dropVerify (.batchEnvelope .unsigned)
    | .error .malformed => r.drop .dropMalformed (.batchEnvelope .malformed)
    | .ok env =>
      match r.bucket.accept P.peerRate (rateKey env.originNodeID) env.originSeq with
      | (bucket, .drop) => { r with bucket := bucket }.rateDrop .hybridBatch env.originNodeID env.originSeq
      | (bucket, .keep) =>
        let r := { r with bucket := bucket }
        match r.dir.lookupBoth env.originNodeID with
        | none => r.drop .dropVerify (.directoryMiss env.originNodeID)
        | some (originPub, pqPub) =>
          if !P.crypto.verifyBatchHybrid originPub pqPub env.batchWire env.edSig.bytes env.pqSig.bytes then
            r.drop .dropVerify .hybridSignature
          else applyBatch P r env.batchWire env.originSeq frame [.hybridAccept]

end Receiver

/-! ### A small platform -/

/-- An event of the small platform: origin, counter, and the entity in the rest; the payload is empty. -/
def Capnp.sampleEvent (wire : Bytes) : Except DecodeError DeltaEvent :=
  if wire.length < 24 then .error .unmarshal
  else
    .ok
      { version := crdtDeltaEventWireVersion
        originNodeID := some (slice wire 0 16)
        entityId := some (wire.drop 24)
        payloadDigest := some (FixedBytes.zero 32).bytes
        dotNodeID := some (slice wire 0 16)
        payloadBytes := some []
        dotCounter := UInt64.ofNat (getBE (slice wire 16 8))
        h3Index := 0
        systemTime := 0
        validTimeStart := 0
        validTimeEnd := 0
        assertionTime := 0
        decisionTime := 0 }

/-- A small platform to run the model on: a batch is one event, and a signature is good if the key is
one of those that sign. -/
def Platform.sample (signers : List PublicKey) : Platform where
  runtime := .sample
  capnp := ⟨Capnp.sampleEvent, fun wire => (Capnp.sampleEvent wire).map ([·])⟩
  crypto :=
    { rejectSmallOrderKey := fun _ => true
      ed25519Verify := fun pub _ _ => pub ∈ signers
      mldsaVerify := fun _ _ _ => false
      shake256 := fun _ => .zero _ }
  peerRate := fun advance _ => advance

def Capnp.sampleWire (origin : NodeID) (dotCounter : UInt64) (entityID : EntityID) : Bytes :=
  origin.bytes ++ (putU64 dotCounter ++ entityID)

/-- A receiver of the small platform that has seen nothing, with the keys it knows. -/
def Receiver.sample (m : NodeID → Option PublicKey) : Receiver :=
  .new .new ⟨m, fun _ => none⟩ (newEngine 1 (fun _ => 0) 0 (.zero 16) 0) 0

end Sovereign.Receive

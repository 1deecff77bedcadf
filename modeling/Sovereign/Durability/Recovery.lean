import Sovereign.Durability.Snapshot
import Sovereign.Sync.Convergence
import Sovereign.Wal.Replay

/-!
# Recovery

`RecoverEngineWithSnapshot` of `pkg/durability/recovery.go`.  The log is replayed; if its last
checkpoint has an image in the store, bound to it by watermark, cut and Merkle root and free of local
dots the log does not know, the engine starts from the image and only the records from the
cut on are joined; otherwise every record is.  Records below the cut that the image lacks are
restored, and the root and the fingerprint of the checkpoint are checked wherever they apply.

The parts of the source function are separate definitions here, in its order.

The scratch directory and the arena of the engine are left out: creating an engine always succeeds.
Log lines are left out; the reason of a fallback is kept, as data.
-/

namespace Sovereign.Durability

open Lib Sync Wal

/-! ### Records -/

def maxPlausibleCounter : UInt64 := 1152921504606846976

/-- Why a mutation record is refused; each carries what its message prints. -/
inductive RecordError where
  /-- WAL mutation with empty entityID -/
  | emptyEntityID (dot : CausalDot)
  /-- WAL mutation carries a zero dot -/
  | zeroDot (entityID : EntityID) (dot : CausalDot)
  /-- WAL mutation carries a foreign dot -/
  | foreignDot (entityID : EntityID) (nodeID thisNode : NodeID)
  /-- counter exceeds the absolute ceiling -/
  | counterCeiling (entityID : EntityID) (counter : UInt64)
  /-- full-entry dot disagrees with top-level dot -/
  | dotDisagrees (entityID : EntityID) (full top : CausalDot)
  /-- origin is not this node -/
  | foreignOrigin (entityID : EntityID) (origin thisNode : NodeID)
deriving DecidableEq

/-- The dot of a mutation. -/
def dotOf (m : WALMutation) : CausalDot := ⟨m.nodeID, m.counter⟩

def checkMutationRecord (m : WALMutation) (nodeID : NodeID) : Except RecordError Unit :=
  if m.entityID = [] then .error (.emptyEntityID (dotOf m))
  else if m.nodeID = .zero 16 ∨ m.counter = 0 then .error (.zeroDot m.entityID (dotOf m))
  else if m.nodeID ≠ nodeID then .error (.foreignDot m.entityID m.nodeID nodeID)
  else if maxPlausibleCounter < m.counter then .error (.counterCeiling m.entityID m.counter)
  else if m.legacy then .ok ()
  else if m.full.dotNodeID ≠ m.nodeID ∨ m.full.dotCounter ≠ m.counter then
    .error (.dotDisagrees m.entityID m.full.dot (dotOf m))
  else if m.full.originNodeID ≠ nodeID then
    .error (.foreignOrigin m.entityID m.full.originNodeID nodeID)
  else .ok ()

def restoreEntry (m : WALMutation) (nodeID : NodeID) : CRDTEntry :=
  if m.legacy then
    ⟨m.entry.payloadDigest, nodeID, m.nodeID, m.counter, m.entry.systemTime, 0, 0, 0, 0, 0⟩
  else m.full

def restored (nodeID : NodeID) (m : WALMutation) : SnapshotRecord :=
  ⟨m.entityID, restoreEntry m nodeID⟩

def recordSeq : WALRecord → UInt64
  | .mutation _ _ seq => seq
  | .clockAdvance _ seq => seq

def recordMutation? : WALRecord → Option WALMutation
  | .mutation _ m _ => some m
  | .clockAdvance _ _ => none

/-! ### Which image is used -/

/-- Why the image is not used. -/
inductive FallbackReason where
  | probeFailed (lamportHigh : UInt64) (err : SnapshotError)
  | noImage (lamportHigh : UInt64)
  | loadFailed (lamportHigh : UInt64) (err : SnapshotError)
  | watermarkMismatch (header key : UInt64)
  | bindingMismatch (imageCut : UInt64) (imageRoot : Digest) (cut : UInt64) (root : Digest)
      (lamportHigh : UInt64)
  | phantoms (lamportHigh : UInt64) (count : ℕ)
  | noCheckpoint
deriving DecidableEq

/-- The image of the last checkpoint, if it is there and bound to it. -/
def selectImage (rep : Replayed) (store : SnapshotStore) : Except FallbackReason SnapshotImage :=
  if rep.hasCheckpoint then
    let lh := rep.finalCheckpt.lamportHigh
    match store.snapshotExists lh with
    | .error err => .error (.probeFailed lh err)
    | .ok false => .error (.noImage lh)
    | .ok true =>
      match store.loadSnapshotImage lh with
      | .error err => .error (.loadFailed lh err)
      | .ok img =>
        if img.lamportHigh ≠ lh then .error (.watermarkMismatch img.lamportHigh lh)
        else if rep.finalCheckpt.hasCutSeq ∧
            (img.cutSeq ≠ rep.finalCheckpt.cutSeq ∨
              img.merkleRoot ≠ rep.finalCheckpt.merkleRoot) then
          .error (.bindingMismatch img.cutSeq img.merkleRoot rep.finalCheckpt.cutSeq
            rep.finalCheckpt.merkleRoot lh)
        else .ok img
  else .error .noCheckpoint

/-- The local dots of an image that no replayed mutation has, counted per record. -/
def phantoms (rep : Replayed) (nodeID : NodeID) (image : SnapshotImage) : ℕ :=
  image.records.countP fun r =>
    r.entry.dotNodeID = nodeID ∧ r.entry.dot ∉ rep.mutations.map dotOf

/-- The image recovery starts from, or why there is none; without a store there is no reason. -/
def usableImage (rep : Replayed) (nodeID : NodeID) (store : Option SnapshotStore) :
    Except (Option FallbackReason) SnapshotImage :=
  match store with
  | none => .error none
  | some store =>
    match selectImage rep store with
    | .error reason => .error (some reason)
    | .ok img =>
      if 0 < phantoms rep nodeID img then
        .error (some (.phantoms img.lamportHigh (phantoms rep nodeID img)))
      else .ok img

/-- The clock the rebuilt engine starts with. -/
def rebuiltInitial (rep : Replayed) : UInt64 :=
  if rep.hasCheckpoint ∧ rep.lamportHigh < rep.finalCheckpt.clockHigh then
    rep.finalCheckpt.clockHigh
  else rep.lamportHigh

/-- `cutFrom`: the first sequence number of the tail. -/
def cutFrom (rep : Replayed) : UInt64 :=
  if rep.hasCheckpoint ∧ rep.finalCheckpt.hasCutSeq then rep.finalCheckpt.cutSeq
  else rep.finalCheckptSeq + 1

/-! ### Joining records -/

def replayChunkSize : ℕ := 2048

def snapshotDelta (records : List SnapshotRecord) : CRDTDelta := ⟨.zero 16, records⟩

/-- The engine under reconstruction, the records not yet joined and the counters. -/
structure Rebuild where
  engine : Engine
  chunk : List SnapshotRecord
  replayed : ℕ
  legacyRecords : ℕ
  holesRepaired : ℕ

namespace Rebuild

variable (R : Runtime)

def flushChunk (rb : Rebuild) : Rebuild :=
  if rb.chunk = [] then rb
  else { rb with engine := rb.engine.join R (snapshotDelta rb.chunk), chunk := [] }

/-- Append a record to the chunk and flush a full one. -/
def push (rb : Rebuild) (r : SnapshotRecord) : Rebuild :=
  let rb : Rebuild := { rb with chunk := rb.chunk ++ [r] }
  if replayChunkSize ≤ rb.chunk.length then rb.flushChunk R else rb

/-- The body of the loop over the log. -/
def replayRecord (nodeID : NodeID) (rb : Rebuild) : WALRecord → Except RecordError Rebuild
  | .mutation _ m _ =>
    match checkMutationRecord m nodeID with
    | .error err => .error err
    | .ok () =>
      let rb : Rebuild :=
        { rb with legacyRecords := rb.legacyRecords + if m.legacy then 1 else 0 }
      let rb := rb.push R (restored nodeID m)
      .ok { rb with replayed := rb.replayed + 1 }
  | .clockAdvance v _ =>
    .ok { rb with engine := rb.engine.advanceLamportTo R v, replayed := rb.replayed + 1 }

/-- The loop over the records of the log; with a cut, those below it are skipped. -/
def replayTail (nodeID : NodeID) (cut : Option UInt64) :
    List WALRecord → Rebuild → Except RecordError Rebuild
  | [], rb => .ok (rb.flushChunk R)
  | rec :: recs, rb =>
    if ∃ c ∈ cut, recordSeq rec < c then replayTail nodeID cut recs rb
    else
      match rb.replayRecord R nodeID rec with
      | .error err => .error err
      | .ok rb' => replayTail nodeID cut recs rb'

/-- The loop that restores mutations below the cut that the image lacks. -/
def repairHoles (nodeID : NodeID) (cut : UInt64) (inImage : List CausalDot) :
    List WALRecord → Rebuild → Except RecordError Rebuild
  | [], rb => .ok (rb.flushChunk R)
  | rec :: recs, rb =>
    match recordMutation? rec with
    | none => repairHoles nodeID cut inImage recs rb
    | some m =>
      if cut ≤ recordSeq rec then repairHoles nodeID cut inImage recs rb
      else if dotOf m ∈ inImage then repairHoles nodeID cut inImage recs rb
      else
        match checkMutationRecord m nodeID with
        | .error err => .error err
        | .ok () =>
          let rb := rb.push R (restored nodeID m)
          repairHoles nodeID cut inImage recs { rb with holesRepaired := rb.holesRepaired + 1 }

end Rebuild

/-! ### The whole -/

inductive RecoveryError where
  /-- the log cannot be replayed -/
  | replay (err : WALError)
  /-- the image Join skipped records -/
  | imageDuplicate (skipped : UInt64)
  /-- pre-tail image root mismatch -/
  | imageRootMismatch (rebuilt checkpoint : Digest) (cutSeq : UInt64)
  /-- pre-tail image fingerprint mismatch -/
  | fingerprintMismatch (rebuilt checkpoint : Digest) (cutSeq : UInt64)
  /-- a mutation record is refused -/
  | record (err : RecordError)
  /-- the log cannot be reopened -/
  | reopen (err : WALError)
  /-- rebuilt root differs from the checkpoint -/
  | rootMismatch (rebuilt checkpoint : Digest) (lamportHigh : UInt64) (mutations : ℕ)
deriving DecidableEq

structure RecoveryWitness where
  bounded : Bool
  replayedRecords : ℕ
  snapshotLamportHigh : UInt64
  fallbackReason : Option FallbackReason
  checkpointSeq : UInt64
  localPhantomsRejected : ℕ
  exactWALFallback : Bool
  legacyRecords : ℕ
  holesRepaired : ℕ
  integrityChecksArmed : Bool
  legacyCheckpoint : Bool
  postTailRootArmed : Bool
  seqContiguityVerified : Bool
  recordsVerified : ℕ
  clockHighClamped : Bool
  clockHighRaw : UInt64
deriving DecidableEq

/-- The zero value of `RecoveryWitness`. -/
def RecoveryWitness.zero : RecoveryWitness :=
  ⟨false, 0, 0, none, 0, 0, false, 0, 0, false, false, false, false, 0, false, 0⟩

structure Recovered where
  engine : Engine
  wal : WAL
  rep : Replayed
  witness : RecoveryWitness

structure BootSeeds where
  tries : ℕ → Seed
  route : Seed

def newEngineAt (seeds : BootSeeds) (nodeID : NodeID) (initialCounter : UInt64) : Engine :=
  newEngine defaultShardCount seeds.tries seeds.route nodeID initialCounter

/-- The fields of the witness that say why an image was not used. -/
def FallbackReason.witness (reason : Option FallbackReason) : ℕ × Bool × UInt64 :=
  match reason with
  | some (.phantoms lh n) => (n, true, lh)
  | some (.watermarkMismatch header _) => (0, true, header)
  | some (.bindingMismatch _ _ _ _ lh) => (0, true, lh)
  | some .noCheckpoint => (0, false, 0)
  | some _ => (0, true, 0)
  | none => (0, false, 0)

variable (R : Runtime)

/-- The image joined into the fresh engine, and its checks. -/
def loadImage (rep : Replayed) (e : Engine) (img : SnapshotImage) : Except RecoveryError Engine :=
  let e := e.join R (snapshotDelta img.records)
  if e.entriesSkipped ≠ 0 then .error (.imageDuplicate e.entriesSkipped)
  else if rep.finalCheckpt.hasFingerprint then
    if e.merkleRootFromShards R ≠ rep.finalCheckpt.merkleRoot then
      .error (.imageRootMismatch (e.merkleRootFromShards R) rep.finalCheckpt.merkleRoot
        rep.finalCheckpt.cutSeq)
    else if stateFingerprint R e ≠ rep.finalCheckpt.fingerprint then
      .error (.fingerprintMismatch (stateFingerprint R e) rep.finalCheckpt.fingerprint
        rep.finalCheckpt.cutSeq)
    else .ok e
  else .ok e

def rebuild (rep : Replayed) (seeds : BootSeeds) (nodeID : NodeID) (image : Option SnapshotImage) :
    Except RecoveryError Rebuild :=
  let fresh := newEngineAt seeds nodeID (rebuiltInitial rep)
  match image with
  | none =>
    match Rebuild.replayTail R nodeID none rep.ordered ⟨fresh, [], 0, 0, 0⟩ with
    | .error err => .error (.record err)
    | .ok rb => .ok { rb with engine := rb.engine.advanceLamportTo R (rebuiltInitial rep) }
  | some img =>
    match loadImage R rep fresh img with
    | .error err => .error err
    | .ok e =>
      match Rebuild.replayTail R nodeID (some (cutFrom rep)) rep.ordered ⟨e, [], 0, 0, 0⟩ with
      | .error err => .error (.record err)
      | .ok rb =>
        match Rebuild.repairHoles R nodeID (cutFrom rep)
            (img.records.map fun r => r.entry.dot) rep.ordered rb with
        | .error err => .error (.record err)
        | .ok rb => .ok { rb with engine := rb.engine.advanceLamportTo R (rebuiltInitial rep) }

/-- `checkpointFinal`: no mutation from the cut on. -/
def checkpointFinal (rep : Replayed) : Bool :=
  rep.ordered.all fun rec => (recordMutation? rec).isNone || recordSeq rec < cutFrom rep

/-- `RecoverEngineWithSnapshot`; without a file it boots cold. -/
def recoverEngineWithSnapshot (seeds : BootSeeds) (nodeID : NodeID) (file : Option Bytes)
    (store : Option SnapshotStore) : Except RecoveryError Recovered :=
  match file with
  | none =>
    match openWAL [] with
    | .error err => .error (.reopen err)
    | .ok wal => .ok ⟨newEngineAt seeds nodeID 1, wal, .empty, .zero⟩
  | some file =>
    match replayWAL file with
    | .error err => .error (.replay err)
    | .ok rep =>
      let usable := usableImage rep nodeID store
      let (image, reason) : Option SnapshotImage × Option FallbackReason :=
        match usable with
        | .ok img => (some img, none)
        | .error reason => (none, reason)
      match rebuild R rep seeds nodeID image with
      | .error err => .error err
      | .ok rb =>
        match openWAL file with
        | .error err => .error (.reopen err)
        | .ok wal =>
          let postTailArmed : Bool :=
            rep.hasCheckpoint && checkpointFinal rep && image.isSome && rb.holesRepaired = 0
          let root := rb.engine.merkleRootFromShards R
          if postTailArmed ∧ root ≠ rep.finalCheckpt.merkleRoot then
            .error (.rootMismatch root rep.finalCheckpt.merkleRoot rep.lamportHigh
              rep.mutations.length)
          else
            let (rejected, exact, lh) := FallbackReason.witness reason
            .ok
              { engine := rb.engine
                wal := wal
                rep := rep
                witness :=
                  { bounded := image.isSome
                    replayedRecords := rb.replayed
                    snapshotLamportHigh :=
                      match image with
                      | some img => img.lamportHigh
                      | none => lh
                    fallbackReason := reason
                    checkpointSeq := rep.finalCheckptSeq
                    localPhantomsRejected := rejected
                    exactWALFallback := exact
                    legacyRecords := rb.legacyRecords
                    holesRepaired := rb.holesRepaired
                    integrityChecksArmed := image.isSome && rep.finalCheckpt.hasFingerprint
                    legacyCheckpoint := rep.legacyCheckpoint
                    postTailRootArmed := postTailArmed
                    seqContiguityVerified := rep.seqContiguityVerified
                    recordsVerified := rep.recordsVerified
                    clockHighClamped := rep.clockHighClamped
                    clockHighRaw := rep.clockHighRaw } }

def recoverEngine (seeds : BootSeeds) (nodeID : NodeID) (file : Option Bytes) :
    Except RecoveryError Recovered :=
  recoverEngineWithSnapshot R seeds nodeID file none

end Sovereign.Durability

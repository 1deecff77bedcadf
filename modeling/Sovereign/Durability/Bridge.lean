import Sovereign.Durability.Rebuild
import Sovereign.Wal.Append

/-!
# The durability bridge

`pkg/durability/bridge.go`: local writes go to the engine first and then to the log.  `putLocal`
writes one item; `putLocals` inserts a list of items and appends their mutations as one batch;
`appendCheckpoint` captures the engine, appends the checkpoint and writes the image.  A call is
acknowledged if its append succeeds.

Each is one atomic call here; `Durability.Node` takes them apart.  The group-commit statistics, the
scheduling of checkpoints and the query tier behind an image are left out.
-/

namespace Sovereign.Durability

open Lib Sync Wal

structure LocalItem where
  entityID : EntityID
  payload : Bytes
  entry : CRDTEntry
deriving DecidableEq

/-- `Bridge`; `snapshotter` has the objects of the store, if one is wired. -/
structure Bridge where
  engine : Engine
  wal : WAL
  snapshotter : Option Objects

variable (R : Runtime)

def LocalItem.digested (item : LocalItem) : CRDTEntry :=
  { item.entry with payloadDigest := R.sha256 item.payload }

def LocalItem.mutation (item : LocalItem) (dot : CausalDot) : WALMutation :=
  newWALMutation item.entityID dot (item.digested R)

def checkpointOf (node : NodeID) (pairs : List (EntityID × List CRDTEntry))
    (cutSeq clockHigh : UInt64) (withImage : Bool) : WALCheckpoint where
  merkleRoot := Engine.hashDotPairs R (Engine.dotPairs pairs)
  fingerprint := if withImage then fingerprintRecords R (recordsOf pairs) else .zero 32
  lamportHigh := Engine.maxLocalDot node (Engine.dotPairs pairs)
  cutSeq := cutSeq
  clockHigh := clockHigh
  hasCutSeq := true
  hasFingerprint := withImage

def imageOf (node : NodeID) (pairs : List (EntityID × List CRDTEntry)) (cutSeq : UInt64) :
    SnapshotImage where
  records := recordsOf pairs
  merkleRoot := Engine.hashDotPairs R (Engine.dotPairs pairs)
  lamportHigh := Engine.maxLocalDot node (Engine.dotPairs pairs)
  cutSeq := cutSeq

namespace Bridge

def putLocal (b : Bridge) (item : LocalItem) (f : Faults) :
    Bridge × CausalDot × Except AppendError Unit :=
  let (dot, engine) := b.engine.insertLocal R item.entityID (item.digested R)
  let (wal, result) := b.wal.appendMutation (item.mutation R dot) (f.write 0) f.synced
  ({ b with engine := engine, wal := wal }, dot, result)

/-- The loop of `PutLocals`: insert every item and collect the dots and the mutations. -/
def insertLocals : Engine → List LocalItem → Engine × List CausalDot × List WALMutation
  | e, [] => (e, [], [])
  | e, item :: items =>
    let (dot, e) := e.insertLocal R item.entityID (item.digested R)
    let (e, dots, mutations) := insertLocals e items
    (e, dot :: dots, item.mutation R dot :: mutations)

def putLocals (b : Bridge) (items : List LocalItem) (f : Faults) :
    Bridge × List CausalDot × Except AppendError Unit :=
  let (engine, dots, mutations) := insertLocals R b.engine items
  let (wal, result) := b.wal.appendMutations mutations f.write f.synced
  ({ b with engine := engine, wal := wal }, dots, result)

inductive CheckpointError where
  | append (err : AppendError)
  | image (err : SnapshotError)

/-- `AppendCheckpoint`, without other calls in between. -/
def appendCheckpoint (b : Bridge) (f : Faults) : Bridge × Except CheckpointError Unit :=
  let cutSeq := b.wal.nextSeq
  let pairs := (b.engine.captureShardsPinned R).1
  let node := b.engine.localNodeID
  let ckpt := checkpointOf R node pairs cutSeq b.engine.lamportCounter b.snapshotter.isSome
  match b.wal.appendCheckpoint ckpt (f.write 0) f.synced with
  | (wal, .error err) => ({ b with wal := wal }, .error (.append err))
  | (wal, .ok ()) =>
    match b.snapshotter with
    | none => ({ b with wal := wal }, .ok ())
    | some objects =>
      match writeSnapshotImage objects (imageOf R node pairs cutSeq) with
      | .error err => ({ b with wal := wal }, .error (.image err))
      | .ok objects => ({ b with wal := wal, snapshotter := some objects }, .ok ())

end Bridge

end Sovereign.Durability

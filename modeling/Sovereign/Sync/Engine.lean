import Sovereign.Sync.Hamt

/-!
# The delta-CRDT engine

`DeltaCRDTEngine` of `pkg/sync/crdt.go` as explicit state passing: the shard tries, the Lamport
clock with its saved watermark, the skew EWMA and the counters.  Each method is one definition under
the source's name:

* the clock — `nextDot`, `advanceLamportTo`;
* the writers — `insertLocal` (append, then the last step of an insertion sort), `join` (sort, drop
  duplicates, cut into entity blocks, merge block by block into the shards) and `setShardCount`
  (re-route every entity through `mergeExistingDot`);
* the readers — `pointGet`, `state`, `merkleRootFromShards`, `captureShardsPinned`.

Every call is taken as atomic: the source retries its compare-and-swap until it wins.  Fresh hash
seeds (`maphash.MakeSeed`) are arguments.  The background write of the Lamport watermark, the arena
and the epochs are outside this module.
-/

namespace Sovereign.Sync

open Lib

/-- `CRDTDelta`: what one node sends another. -/
structure CRDTDelta where
  originNodeID : NodeID
  entries : List IncomingEntry

structure Engine where
  shards : List HAMT
  localNodeID : NodeID
  routeSeed : Seed
  lamportCounter : UInt64
  lastSavedCounter : UInt64
  observedInboundRateBits : UInt64
  lamportSkewHorizonBits : UInt64
  lamportSkewAbsoluteSlack : UInt64
  deltasApplied : UInt64
  entriesInserted : UInt64
  entriesSkipped : UInt64

def defaultShardCount : ℕ := 256

/-- `initShardsLocked`: `n` empty tries, each with its own seed. -/
def initShards (n : ℕ) (seeds : ℕ → Seed) : List HAMT := (List.range n).map fun i => HAMT.new (seeds i)

/-- The float64 bits of the default horizon of 60 seconds. -/
def defaultHorizonBits : UInt64 := 0x404E000000000000

/-- The engine constructor with a given shard count; `initialCounter` is already the larger of the
caller's counter and the one read back from disk. -/
def newEngine (n : ℕ) (seeds : ℕ → Seed) (routeSeed : Seed) (localNodeID : NodeID)
    (initialCounter : UInt64) : Engine where
  shards := initShards n seeds
  localNodeID := localNodeID
  routeSeed := routeSeed
  lamportCounter := initialCounter
  lastSavedCounter := initialCounter
  observedInboundRateBits := 0
  lamportSkewHorizonBits := defaultHorizonBits
  lamportSkewAbsoluteSlack := 1000
  deltasApplied := 0
  entriesInserted := 0
  entriesSkipped := 0

namespace Engine

variable (R : Runtime)

/-! ### Routing -/

/-- `routeShard` for a shard count. -/
def route (routeSeed : Seed) (n : ℕ) (entityID : EntityID) : ℕ :=
  if n = 0 then 0
  else
    let h := (R.maphash routeSeed entityID).toNat
    if n &&& (n - 1) = 0 then h &&& (n - 1) else h % n

def routeShard (e : Engine) (entityID : EntityID) : ℕ :=
  route R e.routeSeed e.shards.length entityID

theorem route_lt (routeSeed : Seed) {n : ℕ} (hn : 0 < n) (id : EntityID) :
    route R routeSeed n id < n := by
  have hne : n ≠ 0 := by omega
  simp only [route, hne, if_false]
  split
  · exact lt_of_le_of_lt Nat.and_le_right (by omega)
  · exact Nat.mod_lt _ hn

/-! ### The clock -/

def nextDot (e : Engine) : CausalDot × Engine :=
  let counter := e.lamportCounter + 1
  let nextLimit := counter + 1000
  let lastSaved :=
    if counter ≤ e.lastSavedCounter then e.lastSavedCounter
    else if nextLimit ≤ e.lastSavedCounter then e.lastSavedCounter
    else nextLimit
  (⟨e.localNodeID, counter⟩, { e with lamportCounter := counter, lastSavedCounter := lastSaved })

def advanceLamportTo (e : Engine) (remoteCounter : UInt64) : Engine :=
  if remoteCounter ≤ e.lamportCounter then e
  else
    { e with
      lamportCounter := remoteCounter
      lastSavedCounter :=
        if remoteCounter ≤ e.lastSavedCounter then e.lastSavedCounter else remoteCounter + 1000
      observedInboundRateBits :=
        R.ewmaNext (remoteCounter - e.lamportCounter) e.observedInboundRateBits }

/-! ### Merging into a shard -/

/-- The merged entry list of an entity: the two-pointer loop shared by `mergeExistingDot` and
`perShardMerge`. -/
def mergeEntries (existing incoming : List CRDTEntry) : List CRDTEntry :=
  merge compareDots CRDTEntry.dot existing incoming

/-- The number of incoming entries the loop appended; every iteration appends an existing or an
incoming entry, so it is the growth of the list. -/
def mergeAdded (existing incoming : List CRDTEntry) : ℕ :=
  (mergeEntries existing incoming).length - existing.length

/-- `mergeExistingDot`: the trie changes only if an entry was added. -/
def mergeExistingDot (base : HAMT) (entityID : EntityID) (incoming : List CRDTEntry) : HAMT :=
  if mergeAdded (base.get R entityID) incoming = 0 then base
  else base.set R entityID (mergeEntries (base.get R entityID) incoming)

/-- `perShardMerge`: the blocks of one shard in order, with the inserted and skipped counts. -/
def perShardMerge (base : HAMT) (batches : List (EntityID × List CRDTEntry)) : HAMT × ℕ × ℕ :=
  batches.foldl
    (fun acc b =>
      let added := mergeAdded (acc.1.get R b.1) b.2
      (mergeExistingDot R acc.1 b.1 b.2, acc.2.1 + added, acc.2.2 + (b.2.length - added)))
    (base, 0, 0)

/-! ### Writers -/

/-- The entry `InsertLocal` stores: stamped with the minted dot and the local origin. -/
def stamp (e : Engine) (dot : CausalDot) (entry : CRDTEntry) : CRDTEntry :=
  { entry with
    dotNodeID := dot.nodeID
    dotCounter := dot.counter
    originNodeID := e.localNodeID }

/-- The compare-and-swap of `InsertLocal`: put the stamped entry behind the entity's entries and move
it to its place. -/
def publish (e : Engine) (dot : CausalDot) (entityID : EntityID) (entry : CRDTEntry) : Engine :=
  { e with
    shards := e.shards.modify (e.routeShard R entityID) fun shard =>
      shard.set R entityID
        (insertFromEnd compareDots CRDTEntry.dot (shard.get R entityID) (e.stamp dot entry))
    entriesInserted := e.entriesInserted + 1 }

/-- `InsertLocal`: mint a dot, then publish the entry under it. -/
def insertLocal (e : Engine) (entityID : EntityID) (entry : CRDTEntry) : CausalDot × Engine :=
  let (dot, e1) := e.nextDot
  (dot, e1.publish R dot entityID entry)

/-- The incoming entries of a delta, sorted and without duplicates of a key. -/
def sortedIncoming (incoming : List IncomingEntry) : List IncomingEntry :=
  dedupAdjacent compareKeys IncomingEntry.key (R.sortIncoming incoming)

/-- The entity blocks of a sorted delta. -/
def entityBlocks (sorted : List IncomingEntry) : List (EntityID × List CRDTEntry) :=
  (groupRuns IncomingEntry.entityID sorted).map fun b => (b.1, b.2.map IncomingEntry.entry)

/-- `Join`.  A shard without blocks is left alone, so mapping over all shards is the source's loop
over the shards that have some. -/
def join (e : Engine) (delta : CRDTDelta) : Engine :=
  let e1 := delta.entries.foldl (fun e x => e.advanceLamportTo R x.entry.dotCounter) e
  if delta.entries.isEmpty then e1
  else
    let sorted := sortedIncoming R delta.entries
    let blocks := entityBlocks sorted
    let merged := e1.shards.mapIdx fun i shard =>
      perShardMerge R shard (blocks.filter fun b => e1.routeShard R b.1 = i)
    { e1 with
      shards := merged.map fun m => m.1
      entriesInserted := e1.entriesInserted + UInt64.ofNat (merged.map fun m => m.2.1).sum
      entriesSkipped :=
        e1.entriesSkipped + UInt64.ofNat (delta.entries.length - sorted.length)
          + UInt64.ofNat (merged.map fun m => m.2.2).sum
      deltasApplied := e1.deltasApplied + 1 }

/-- The compare-and-swap of `Join` on one shard.  The counters, which `Join` adds up over all its
shards, are not touched. -/
def mergeShard (e : Engine) (i : ℕ) (batches : List (EntityID × List CRDTEntry)) : Engine :=
  { e with shards := e.shards.modify i fun shard => (perShardMerge R shard batches).1 }

def allPairs (e : Engine) : List (EntityID × List CRDTEntry) := e.shards.flatMap HAMT.toList

/-- `SetShardCount`; `none` is its panic.  `seeds` are those of the new tries. -/
def setShardCount (e : Engine) (n : ℕ) (seeds : ℕ → Seed) : Option Engine :=
  if n < 1 ∨ n &&& (n - 1) ≠ 0 then none
  else if e.shards.length = n then some e
  else
    some { e with
      shards := e.allPairs.foldl
        (fun shards p => shards.modify (route R e.routeSeed n p.1) fun cur =>
          mergeExistingDot R cur p.1 p.2)
        (initShards n seeds) }

/-! ### Readers -/

def pointGet (e : Engine) (entityID : EntityID) : List CRDTEntry :=
  match e.shards[e.routeShard R entityID]? with
  | none => []
  | some shard => shard.get R entityID

/-- `State`: all shards merged into one fresh trie. -/
def state (e : Engine) (seed : Seed) : HAMT :=
  e.allPairs.foldl (fun merged p => merged.set R p.1 p.2) (HAMT.new seed)

def dotPairs (pairs : List (EntityID × List CRDTEntry)) : List CausalDot :=
  pairs.flatMap fun p => p.2.map CRDTEntry.dot

/-- The sort of the Merkle root: the order is total on dots, so every sort gives this list. -/
def sortDots (dots : List CausalDot) : List CausalDot :=
  sortBy compareDots id dots

/-- The 24 bytes hashed per dot. -/
def dotBytes (d : CausalDot) : Bytes := d.nodeID.bytes ++ putU64 d.counter

/-- `hashShardDotPairs`, and the second half of `HAMT.MerkleRoot`. -/
def hashDotPairs (dots : List CausalDot) : Digest :=
  if dots.isEmpty then FixedBytes.zero 32 else R.sha256 ((sortDots dots).flatMap dotBytes)

def merkleRootFromShards (e : Engine) : Digest := hashDotPairs R (dotPairs e.allPairs)

/-- The largest counter of a node among dots, zero if it has none. -/
def maxLocalDot (node : NodeID) (dots : List CausalDot) : UInt64 :=
  dots.foldl (fun high d => if d.nodeID = node ∧ high < d.counter then d.counter else high) 0

/-- `CaptureShardsPinned`: the visited pairs, their root and the largest local counter. -/
def captureShardsPinned (e : Engine) : List (EntityID × List CRDTEntry) × Digest × UInt64 :=
  (e.allPairs, hashDotPairs R (dotPairs e.allPairs),
    maxLocalDot e.localNodeID (dotPairs e.allPairs))

end Engine

def HAMT.merkleRoot (R : Runtime) (h : HAMT) : Digest :=
  Engine.hashDotPairs R (Engine.dotPairs h.toList)

end Sovereign.Sync

import Sovereign.Lib.Sketch
import Sovereign.Sync.EngineSpec

/-!
# The invertible Bloom lookup table of anti-entropy

`iblt.go`: a table of buckets `(Count, KeySum, HashSum)` in which a key is written `k` times, its
subtraction, and the peeling loop that lists the keys of a difference; and the digest and delta
generation of `crdt.go` on top of it.

`PeelArena` and `Peel` are the same loop with different backing memory and are one definition here.
Its work queue is the list of indices still to come: the head index and the compaction of the
source only manage memory.  The loop has no bound of its own (a table that is not the difference of
two sketches may keep it busy), so it takes fuel, and `none` is a loop that has not finished.
-/

namespace Sovereign.Sync

open Lib

@[ext] structure Bucket where
  count : Int32
  keySum : UInt64
  hashSum : UInt64
deriving DecidableEq

namespace Bucket

def put (b : Bucket) (key hash : UInt64) : Bucket :=
  ⟨b.count + 1, b.keySum ^^^ key, b.hashSum ^^^ hash⟩

def take (b : Bucket) (key hash : UInt64) : Bucket :=
  ⟨b.count - 1, b.keySum ^^^ key, b.hashSum ^^^ hash⟩

instance : Zero Bucket := ⟨⟨0, 0, 0⟩⟩

instance : Add Bucket := ⟨fun a b => ⟨a.count + b.count, a.keySum ^^^ b.keySum, a.hashSum ^^^ b.hashSum⟩⟩

instance : Neg Bucket := ⟨fun a => ⟨-a.count, a.keySum, a.hashSum⟩⟩

/-- The cell-wise difference of `Subtract`. -/
instance : Sub Bucket := ⟨fun a b => ⟨a.count - b.count, a.keySum ^^^ b.keySum, a.hashSum ^^^ b.hashSum⟩⟩

theorem zero_def : (0 : Bucket) = ⟨0, 0, 0⟩ := rfl

theorem add_def (a b : Bucket) :
    a + b = ⟨a.count + b.count, a.keySum ^^^ b.keySum, a.hashSum ^^^ b.hashSum⟩ := rfl

theorem neg_def (a : Bucket) : -a = ⟨-a.count, a.keySum, a.hashSum⟩ := rfl

theorem sub_def (a b : Bucket) :
    a - b = ⟨a.count - b.count, a.keySum ^^^ b.keySum, a.hashSum ^^^ b.hashSum⟩ := rfl

/-- Buckets are a commutative group: counters modulo `2 ^ 32`, sums by exclusive or. -/
instance : AddCommGroup Bucket where
  add_assoc a b c := by ext1 <;> simp [add_def, Int32.add_assoc, UInt64.xor_assoc]
  zero_add a := by ext1 <;> simp [add_def, zero_def]
  add_zero a := by ext1 <;> simp [add_def, zero_def]
  add_comm a b := by ext1 <;> simp [add_def, Int32.add_comm, UInt64.xor_comm]
  neg_add_cancel a := by ext1 <;> simp [add_def, neg_def, zero_def, Int32.add_left_neg]
  sub_eq_add_neg a b := by ext1 <;> simp [sub_def, add_def, neg_def, Int32.sub_eq_add_neg]
  nsmul := nsmulRec
  zsmul := zsmulRec

end Bucket

structure IBLT where
  buckets : List Bucket
  k : ℕ
  seed : Seed
deriving DecidableEq

def ibltMaxK : ℕ := 8

/-- `NewIBLTWithSeed`; `none` is its panic. -/
def newIBLTWithSeed (numBuckets k : ℕ) (seed : Seed) : Option IBLT :=
  if k = 0 ∨ ibltMaxK < k then none else some ⟨List.replicate numBuckets 0, k, seed⟩

namespace IBLT

variable (R : Runtime)

/-- The primary hash of `hashKeyWithSeed`: of the eight little-endian bytes of the key. -/
def hashKey (t : IBLT) (key : UInt64) : UInt64 := R.maphash t.seed (putLE 8 key.toNat)

/-- The bucket indices of `getHashesInto`, by double hashing. -/
def getHashes (t : IBLT) (key : UInt64) : List ℕ :=
  let h1 := t.hashKey R key
  let h2 := (h1 >>> 32) ||| 1
  (List.range t.k).map fun i => ((h1 + UInt64.ofNat i * h2) % UInt64.ofNat t.buckets.length).toNat

def insert (t : IBLT) (key : UInt64) : IBLT :=
  { t with
    buckets := (t.getHashes R key).foldl
      (fun bs idx => bs.modify idx fun b => b.put key (t.hashKey R key)) t.buckets }

/-- `Subtract` and `subtractArena`; `none` when the configurations differ. -/
def subtract (t other : IBLT) : Option IBLT :=
  if t.buckets.length ≠ other.buckets.length ∨ t.k ≠ other.k then none
  else some { t with buckets := List.zipWith (· - ·) t.buckets other.buckets }

def bucket (t : IBLT) (idx : ℕ) : Bucket := t.buckets.getD idx 0

def isPureCount (count : Int32) : Bool := count = 1 ∨ count = -1

/-- `isPure`: one key by its count, and the checksum fits. -/
def isPure (t : IBLT) (idx : ℕ) : Bool :=
  isPureCount (t.bucket idx).count ∧ (t.bucket idx).hashSum = t.hashKey R (t.bucket idx).keySum

/-- The inner loop of `Peel`: take a key out of its buckets, and queue those that become pure. -/
def unpeel (t : IBLT) (queue : List ℕ) (key : UInt64) (positive : Bool) : IBLT × List ℕ :=
  (t.getHashes R key).foldl
    (fun acc idx =>
      let t' := { acc.1 with
        buckets := acc.1.buckets.modify idx fun b =>
          if positive then b.take key (t.hashKey R key) else b.put key (t.hashKey R key) }
      (t', if t'.isPure R idx then acc.2 ++ [idx] else acc.2))
    (t, queue)

/-- The loop of `Peel` over the queue of candidate buckets. -/
def peelLoop : ℕ → List ℕ → IBLT → List UInt64 → List UInt64 →
    Option (IBLT × List UInt64 × List UInt64)
  | _, [], t, localHas, remoteHas => some (t, localHas, remoteHas)
  | 0, _ :: _, _, _, _ => none
  | fuel + 1, idx :: queue, t, localHas, remoteHas =>
    let b := t.bucket idx
    if !isPureCount b.count then peelLoop fuel queue t localHas remoteHas
    else if !t.isPure R idx then peelLoop fuel queue t localHas remoteHas
    else if 0 < b.count then
      let (t', queue') := t.unpeel R queue b.keySum true
      peelLoop fuel queue' t' (localHas ++ [b.keySum]) remoteHas
    else
      let (t', queue') := t.unpeel R queue b.keySum false
      peelLoop fuel queue' t' localHas (remoteHas ++ [b.keySum])

/-- `Peel` and `PeelArena`: the keys of the two sides, and whether the peel was incomplete. -/
def peel (fuel : ℕ) (t : IBLT) : Option (List UInt64 × List UInt64 × Bool) :=
  match peelLoop R fuel ((List.range t.buckets.length).filter fun i => t.isPure R i) t [] [] with
  | none => none
  | some (t', localHas, remoteHas) => some (localHas, remoteHas, t'.buckets.any (· ≠ 0))

end IBLT

/-! ### Digests and deltas -/

/-- `HashCausalDot`: FNV-1a over the node, the counter (little endian) and the payload digest. -/
def hashCausalDot (dot : CausalDot) (digest : Digest) : UInt64 :=
  (dot.nodeID.bytes ++ putLE 8 dot.counter.toNat ++ digest.bytes).foldl
    (fun key b => (key ^^^ b.toUInt64) * 1099511628211) 14695981039346656037

namespace Engine

variable (R : Runtime)

/-- Everything the walk over the shards visits, entry by entry. -/
def items (e : Engine) : List IncomingEntry :=
  e.allPairs.flatMap fun p => p.2.map fun entry => ⟨p.1, entry⟩

def sketchKey (x : IncomingEntry) : UInt64 := hashCausalDot x.entry.dot x.entry.payloadDigest

/-- The sketch of an engine's entries in a given table. -/
def sketchInto (e : Engine) (t : IBLT) : IBLT := (e.items.map sketchKey).foldl (IBLT.insert R) t

def generateDigestWithSeed (e : Engine) (seed : Seed) : IBLT :=
  e.sketchInto R ⟨List.replicate 1024 0, 4, seed⟩

/-- `GenerateDelta`, and the entries its delta yields. -/
def generateDelta (fuel : ℕ) (e : Engine) (remoteDigest : IBLT) : Option CRDTDelta :=
  match (e.generateDigestWithSeed R remoteDigest.seed).subtract remoteDigest with
  | none => some ⟨e.localNodeID, e.items⟩
  | some diff =>
    match diff.peel R fuel with
    | none => none
    | some (sendKeys, _, incomplete) =>
      some ⟨e.localNodeID, e.items.filter fun x => incomplete ∨ sketchKey x ∈ sendKeys⟩

end Engine

end Sovereign.Sync

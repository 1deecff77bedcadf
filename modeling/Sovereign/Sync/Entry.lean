import Sovereign.Lib.Bytes
import Sovereign.Lib.Grouping

/-!
# Causal dots, entries and what the engine takes from its host

The data of `pkg/sync`: a causal dot names one write (`CausalDot`), an entry is the fixed record
stored under it (`CRDTEntry`), and entity identifiers are byte strings.  `compareDots` and
`cmpIncomingEntries` are the two orders the engine sorts by; both are lawful three-way comparisons,
which is all the merge library asks for.

`Runtime` collects what the Go code takes from its standard library without looking inside: the
seeded `maphash`, SHA-256, `slices.SortFunc` (not stable, so only its specification is known) and
the two float64 computations of the Lamport skew envelope.  Every result about the engine holds for
every `Runtime`.
-/

namespace Sovereign.Sync

open Lib

/-- A node identifier, `[16]byte`. -/
abbrev NodeID := FixedBytes 16

/-- A SHA-256 value, `[32]byte`. -/
abbrev Digest := FixedBytes 32

/-- An entity identifier; a Go string is its bytes. -/
abbrev EntityID := Bytes

/-- A seed of `hash/maphash`. -/
abbrev Seed := UInt64

structure CausalDot where
  nodeID : NodeID
  counter : UInt64
deriving DecidableEq

/-- `CRDTEntry`: the fixed-size record kept per dot. -/
structure CRDTEntry where
  payloadDigest : Digest
  originNodeID : NodeID
  dotNodeID : NodeID
  dotCounter : UInt64
  systemTime : Int64
  validTimeStart : Int64
  validTimeEnd : Int64
  assertionTime : Int64
  decisionTime : Int64
  h3Index : UInt64
deriving DecidableEq

def CRDTEntry.dot (e : CRDTEntry) : CausalDot := ⟨e.dotNodeID, e.dotCounter⟩

/-- An entry as a delta carries it, with the entity it belongs to (`incomingEntry`). -/
structure IncomingEntry where
  entityID : EntityID
  entry : CRDTEntry
deriving DecidableEq

/-- The key of an incoming entry: its entity and its dot. -/
def IncomingEntry.key (e : IncomingEntry) : EntityID × CausalDot := (e.entityID, e.entry.dot)

/-! ### The two orders -/

/-- `compareDots`: bytewise by node identifier, then by counter. -/
def compareDots (a b : CausalDot) : Ordering :=
  (compare a.nodeID.bytes b.nodeID.bytes).then (compare a.counter b.counter)

/-- The order of `cmpIncomingEntries` on keys: bytewise by entity, then by dot. -/
def compareKeys (a b : EntityID × CausalDot) : Ordering :=
  (compare a.1 b.1).then (compareDots a.2 b.2)

def cmpIncomingEntries (a b : IncomingEntry) : Ordering := compareKeys a.key b.key

instance : Std.TransCmp compareDots :=
  inferInstanceAs (Std.TransCmp (compareLex (compareOn fun d : CausalDot => d.nodeID.bytes)
    (compareOn CausalDot.counter)))

instance : Std.LawfulEqCmp compareDots where
  eq_of_compare := by
    intro a b h
    obtain ⟨hn, hc⟩ := Ordering.then_eq_eq.mp h
    cases a
    cases b
    simp only [CausalDot.mk.injEq]
    exact ⟨FixedBytes.ext (Std.LawfulEqCmp.eq_of_compare hn), Std.LawfulEqCmp.eq_of_compare hc⟩

instance : Std.TransCmp compareKeys :=
  have : Std.TransCmp fun a b : EntityID × CausalDot => compareDots a.2 b.2 :=
    { eq_swap := Std.OrientedCmp.eq_swap, isLE_trans := Std.TransCmp.isLE_trans }
  inferInstanceAs (Std.TransCmp (compareLex (compareOn fun k : EntityID × CausalDot => k.1)
    fun a b => compareDots a.2 b.2))

instance : Std.LawfulEqCmp compareKeys where
  eq_of_compare := by
    intro a b h
    obtain ⟨hn, hc⟩ := Ordering.then_eq_eq.mp h
    exact Prod.ext (Std.LawfulEqCmp.eq_of_compare hn) (Std.LawfulEqCmp.eq_of_compare hc)

/-! ### The host -/

/-- What the engine takes from the Go runtime and standard library. -/
structure Runtime where
  /-- `maphash` of a byte string under a seed. -/
  maphash : Seed → Bytes → UInt64
  /-- `sha256.Sum256`. -/
  sha256 : Bytes → Digest
  /-- `slices.SortFunc` with `cmpIncomingEntries`; the order of equal elements is unspecified. -/
  sortIncoming : List IncomingEntry → List IncomingEntry
  sortIncoming_perm : ∀ l, (sortIncoming l).Perm l
  sortIncoming_sorted : ∀ l, WeaklyAscending compareKeys IncomingEntry.key (sortIncoming l)
  /-- The next rate of the skew EWMA (float64 bits) from a clock advance and the previous rate. -/
  ewmaNext : UInt64 → UInt64 → UInt64
  /-- The skew envelope `ceil(rate * horizon)` of a rate and a horizon (float64 bits), cut off at
  the largest 64-bit word. -/
  rateEnvelope : UInt64 → UInt64 → UInt64

/-- A small host to run the model on: positional hashing, and a digest that keeps the first bytes. -/
def Runtime.sample : Runtime where
  maphash := fun seed bs => seed + UInt64.ofNat (getBE bs)
  sha256 := fun bs => FixedBytes.copyFrom 32 bs
  sortIncoming := sortBy compareKeys IncomingEntry.key
  sortIncoming_perm := sortBy_perm
  sortIncoming_sorted := weaklyAscending_sortBy
  ewmaNext := fun advance _ => advance
  rateEnvelope := fun _ _ => 0

end Sovereign.Sync

import Sovereign.Receive.Authenticity
import Sovereign.Sync.AntiEntropy

/-!
# What equal Merkle roots certify

`MerkleRootFromShards` hashes the dots of all entries in their order, 24 bytes for each, and nothing else of the
entries, not even the entity.  So up to collisions of SHA-256 it determines the multiset of the dots
(`root_eq_iff_perm`), and it determines the map as far as a dot determines its entity and entry:

* `SingleMeaning` — no dot stands for two different items in what the two engines hold;
* `pointGet_eq_iff_perm` — then the maps are the same iff the dots are.

The condition cannot be dropped.  Whoever signs two items with one dot makes engines with equal roots and different
maps (`root_join_singleton`), and nothing on the receive path compares dots across frames.

SHA-256 is a parameter of the model.  Since its digests are of fixed length it cannot be injective, so what is assumed
is that there is no collision between the two hashed strings, and that neither hashes to the digest of the empty state
(`NoCollision`).
-/

namespace Sovereign.Sync

open Lib

namespace Engine

variable (R : Runtime)

def dots (e : Engine) : List CausalDot := dotPairs e.allPairs

/-- The string that is hashed. -/
def rootPreimage (e : Engine) : Bytes := (sortDots e.dots).flatMap dotBytes

/-- SHA-256 tells the two strings apart, and both from the digest of the empty state. -/
structure NoCollision (a b : Bytes) : Prop where
  eq_of_eq : R.sha256 a = R.sha256 b → a = b
  left_ne_zero : R.sha256 a ≠ .zero 32
  right_ne_zero : R.sha256 b ≠ .zero 32

/-- No dot stands for two different items in what the two engines hold. -/
def SingleMeaning (e e' : Engine) : Prop :=
  Set.InjOn (fun x : IncomingEntry => x.entry.dot) (e.contents R ∪ e'.contents R)

variable {R} {e e' : Engine}

/-! ### The hashed string -/

theorem dotBytes_length (d : CausalDot) : (dotBytes d).length = 24 := by
  rw [dotBytes, List.length_append, d.nodeID.length_bytes, putU64_length]

theorem dotBytes_injective : Function.Injective dotBytes := by
  intro d d' heq
  obtain ⟨hnode, hcounter⟩ := List.append_inj heq (by rw [d.nodeID.length_bytes, d'.nodeID.length_bytes])
  cases d
  cases d'
  cases FixedBytes.bytes_injective hnode
  cases putU64_injective hcounter
  rfl

/-- The dots can be read back from the string. -/
theorem flatMap_dotBytes_injective : Function.Injective fun ds : List CausalDot => ds.flatMap dotBytes := by
  intro ds
  induction ds with
  | nil =>
    intro ds' heq
    cases ds' with
    | nil => rfl
    | cons d' ds' =>
      have hlen := congrArg List.length heq
      simp [dotBytes_length] at hlen
      omega
  | cons d ds ih =>
    intro ds' heq
    cases ds' with
    | nil =>
      have hlen := congrArg List.length heq
      simp [dotBytes_length] at hlen
    | cons d' ds' =>
      obtain ⟨hd, hds⟩ := List.append_inj heq (by rw [dotBytes_length, dotBytes_length])
      rw [dotBytes_injective hd, ih hds]

/-- **Equal roots certify equal multisets of dots.** -/
theorem root_eq_iff_perm (hsha : NoCollision R e.rootPreimage e'.rootPreimage) :
    e.merkleRootFromShards R = e'.merkleRootFromShards R ↔ e.dots.Perm e'.dots := by
  refine ⟨fun heq => ?_, fun hperm => hashDotPairs_congr hperm⟩
  change hashDotPairs R e.dots = hashDotPairs R e'.dots at heq
  unfold hashDotPairs at heq
  by_cases hempty : e.dots.isEmpty = true
  · by_cases hempty' : e'.dots.isEmpty = true
    · rw [List.isEmpty_iff.mp hempty, List.isEmpty_iff.mp hempty']
    · rw [if_pos hempty, if_neg hempty'] at heq
      exact absurd heq.symm hsha.right_ne_zero
  · by_cases hempty' : e'.dots.isEmpty = true
    · rw [if_neg hempty, if_pos hempty'] at heq
      exact absurd heq hsha.left_ne_zero
    · rw [if_neg hempty, if_neg hempty'] at heq
      have hsorted : sortDots e.dots = sortDots e'.dots := flatMap_dotBytes_injective (hsha.eq_of_eq heq)
      have hperm : ∀ ds, (sortDots ds).Perm ds := sortBy_perm
      exact (hperm e.dots).symm.trans (hsorted ▸ hperm e'.dots)

/-! ### Dots and items -/

theorem dots_eq_map_items (e : Engine) : e.dots = e.items.map fun x => x.entry.dot := by
  rw [dots, dotPairs, items, List.map_flatMap]
  refine List.flatMap_congr fun p _ => ?_
  rw [List.map_map]
  rfl

/-- The map determines the dots. -/
theorem perm_dots_of_contents_eq (h : e.WF R) (h' : e'.WF R) (heq : e.contents R = e'.contents R) :
    e.dots.Perm e'.dots := by
  rw [dots_eq_map_items, dots_eq_map_items]
  refine ((List.perm_ext_iff_of_nodup (nodup_items h) (nodup_items h')).mpr fun x => ?_).map _
  rw [mem_items h, mem_items h', heq]

/-- What the one holds the other holds, if it has the dots and they have a single meaning. -/
theorem SingleMeaning.contents_subset (hs : SingleMeaning R e e') (h : e.WF R) (h' : e'.WF R)
    (hperm : e.dots.Perm e'.dots) : e.contents R ⊆ e'.contents R := by
  intro x hx
  have hdot : x.entry.dot ∈ e'.dots := by
    rw [← hperm.mem_iff, dots_eq_map_items]
    exact List.mem_map_of_mem ((mem_items h).mpr hx)
  rw [dots_eq_map_items, List.mem_map] at hdot
  obtain ⟨y, hy, heq⟩ := hdot
  have hy := (mem_items h').mp hy
  rwa [← hs (.inr hy) (.inl hx) heq]

theorem SingleMeaning.symm (hs : SingleMeaning R e e') : SingleMeaning R e' e := by
  rwa [SingleMeaning, Set.union_comm]

/-- **The maps are the same iff the dots are**, where dots have a single meaning. -/
theorem pointGet_eq_iff_perm (h : e.WF R) (h' : e'.WF R) (hs : SingleMeaning R e e') :
    (∀ k, e.pointGet R k = e'.pointGet R k) ↔ e.dots.Perm e'.dots := by
  constructor
  · intro hmap
    refine perm_dots_of_contents_eq h h' (Set.ext fun x => ?_)
    rw [mem_contents, mem_contents, hmap]
  · intro hperm
    exact pointGet_eq_of_contents_eq h h' (Set.Subset.antisymm (hs.contents_subset h h' hperm)
      (hs.symm.contents_subset h' h hperm.symm))

/-! ### Two meanings of a dot -/

theorem contents_join_singleton (a : Replica) (origin : NodeID) (x : IncomingEntry) :
    (a.boot.join R ⟨origin, [x]⟩).contents R = {x} := by
  rw [a.contents_join_boot]
  · ext y
    exact List.mem_singleton
  · intro y hy z hz _
    rw [List.mem_singleton.mp hy, List.mem_singleton.mp hz]

/-- **Two items with one dot make two engines with one root and different maps.** -/
theorem root_join_singleton (a b : Replica) (origin origin' : NodeID) {x y : IncomingEntry}
    (hdot : x.entry.dot = y.entry.dot) (hne : x ≠ y) :
    (a.boot.join R ⟨origin, [x]⟩).merkleRootFromShards R = (b.boot.join R ⟨origin', [y]⟩).merkleRootFromShards R ∧
      (a.boot.join R ⟨origin, [x]⟩).pointGet R x.entityID ≠ (b.boot.join R ⟨origin', [y]⟩).pointGet R x.entityID := by
  have hx := contents_join_singleton (R := R) a origin x
  have hy := contents_join_singleton (R := R) b origin' y
  have hdots : ∀ (c : Replica) (o : NodeID) (z : IncomingEntry), (c.boot.join R ⟨o, [z]⟩).dots = [z.entry.dot] := by
    intro c o z
    have hwf : (c.boot.join R ⟨o, [z]⟩).WF R := (join_spec c.wf_boot _).1
    have hitems : (c.boot.join R ⟨o, [z]⟩).items.Perm [z] := by
      refine (List.perm_ext_iff_of_nodup (nodup_items hwf) (List.nodup_singleton z)).mpr fun w => ?_
      rw [mem_items hwf, contents_join_singleton, List.mem_singleton]
      rfl
    rw [dots_eq_map_items, List.perm_singleton.mp hitems]
    rfl
  constructor
  · rw [merkleRootFromShards, merkleRootFromShards, ← dots, ← dots, hdots, hdots, hdot]
  · intro heq
    have hin : x ∈ (b.boot.join R ⟨origin', [y]⟩).contents R := by
      rw [mem_contents, ← heq, ← mem_contents, hx]
      rfl
    rw [hy] at hin
    exact hne hin

end Engine

end Sovereign.Sync

namespace Sovereign.Receive

open Lib Sync Identity Attribution Admission

/-! ### Engines behind receivers -/

/-- The engine of a receiver that was started with a new one and given frames. -/
def ReachedBy (P : Platform) (e : Engine) : Prop :=
  ∃ (a : Replica) (r : Receiver) (is : List Inbound), r.engine = a.boot ∧ e = (r.handleAll P is).engine

theorem ReachedBy.wf {P : Platform} {e : Engine} (he : ReachedBy P e) : e.WF P.runtime := by
  obtain ⟨a, r, is, hboot, rfl⟩ := he
  refine (handleAll_grows ?_ is).1
  rw [hboot]
  exact a.wf_boot

/-- **Equal roots certify equal dots, and equal maps where dots have a single meaning.**  For all engines behind
receivers, whatever frames these were given; and no weaker condition on dots would do, since any two items with one dot
make a pair of engines with equal roots and different maps. -/
theorem equal_roots_certify_dots (P : Platform) (e e' : Engine) (he : ReachedBy P e) (he' : ReachedBy P e')
    (hsha : Engine.NoCollision P.runtime e.rootPreimage e'.rootPreimage) :
    (e.merkleRootFromShards P.runtime = e'.merkleRootFromShards P.runtime ↔ e.dots.Perm e'.dots) ∧
      (Engine.SingleMeaning P.runtime e e' →
        (e.merkleRootFromShards P.runtime = e'.merkleRootFromShards P.runtime ↔
          ∀ k, e.pointGet P.runtime k = e'.pointGet P.runtime k)) ∧
      ∀ (a b : Replica) (origin origin' : NodeID) (x y : IncomingEntry), x.entry.dot = y.entry.dot → x ≠ y →
        (a.boot.join P.runtime ⟨origin, [x]⟩).merkleRootFromShards P.runtime =
            (b.boot.join P.runtime ⟨origin', [y]⟩).merkleRootFromShards P.runtime ∧
          (a.boot.join P.runtime ⟨origin, [x]⟩).pointGet P.runtime x.entityID ≠
            (b.boot.join P.runtime ⟨origin', [y]⟩).pointGet P.runtime x.entityID := by
  have hroot := Engine.root_eq_iff_perm hsha
  refine ⟨hroot, fun hsingle => ?_, fun a b origin origin' x y hdot hne => ?_⟩
  · rw [hroot, Engine.pointGet_eq_iff_perm he.wf he'.wf hsingle]
  · exact Engine.root_join_singleton a b origin origin' hdot hne

/-- A batch of node 1 with one element at counter 5, for a given entity. -/
def entityBatch (entityID : EntityID) : Inbound :=
  .batch (marshalBatchEnvelope (sampleNode 1) (.copyFrom 64 [1]) 1 1 (Capnp.sampleWire (sampleNode 1) 5 entityID))

/-- The receiver of the small platform after frames. -/
def sampleReceived (is : List Inbound) : Engine :=
  ((Receiver.sample sampleKeys).handleAll (.sample [.copyFrom 32 [1]]) is).engine

theorem reachedBy_sampleReceived (is : List Inbound) : ReachedBy (.sample [.copyFrom 32 [1]]) (sampleReceived is) :=
  ⟨⟨1, Nat.one_pos, fun _ => 0, 0, .zero 16, 0⟩, _, is, rfl, rfl⟩

/-- Where dots have a single meaning can be checked on the items. -/
theorem singleMeaning_of_items {R : Runtime} {e e' : Engine} (h : e.WF R) (h' : e'.WF R)
    (hitems : ∀ x ∈ e.items ++ e'.items, ∀ y ∈ e.items ++ e'.items, x.entry.dot = y.entry.dot → x = y) :
    Engine.SingleMeaning R e e' := by
  have hmem : ∀ x ∈ e.contents R ∪ e'.contents R, x ∈ e.items ++ e'.items := by
    intro x hx
    rw [List.mem_append, Engine.mem_items h, Engine.mem_items h']
    exact hx
  exact fun x hx y hy hdot => hitems x (hmem x hx) y (hmem y hy) hdot

set_option maxRecDepth 100000 in
/-- A frame once, and the same frame twice. -/
theorem equal_roots_certify_dots_on_sample :
    (sampleReceived [entityBatch [7]]).pointGet .sample [7] =
      (sampleReceived [entityBatch [7], entityBatch [7]]).pointGet .sample [7] := by
  have hreached := reachedBy_sampleReceived [entityBatch [7]]
  have hreached' := reachedBy_sampleReceived [entityBatch [7], entityBatch [7]]
  have hsha : Engine.NoCollision .sample (sampleReceived [entityBatch [7]]).rootPreimage
      (sampleReceived [entityBatch [7], entityBatch [7]]).rootPreimage :=
    ⟨fun _ => by decide +kernel, by decide +kernel, by decide +kernel⟩
  have hsingle : Engine.SingleMeaning .sample (sampleReceived [entityBatch [7]])
      (sampleReceived [entityBatch [7], entityBatch [7]]) :=
    singleMeaning_of_items hreached.wf hreached'.wf (by decide +kernel)
  exact ((equal_roots_certify_dots (.sample [.copyFrom 32 [1]]) _ _ hreached hreached' hsha).2.1 hsingle).mp
    (by decide +kernel) [7]

set_option maxRecDepth 100000 in
/-- Node 1 signs counter 5 for two entities and sends each to another receiver.  Both accept, their roots are equal,
and their maps are not. -/
theorem equivocation_keeps_the_root :
    ((Receiver.sample sampleKeys).handle (.sample [.copyFrom 32 [1]]) (entityBatch [7])).verdict = .accept ∧
      ((Receiver.sample sampleKeys).handle (.sample [.copyFrom 32 [1]]) (entityBatch [8])).verdict = .accept ∧
      (sampleReceived [entityBatch [7]]).merkleRootFromShards .sample =
        (sampleReceived [entityBatch [8]]).merkleRootFromShards .sample ∧
      (sampleReceived [entityBatch [7]]).pointGet .sample [7] ≠ [] ∧
      (sampleReceived [entityBatch [8]]).pointGet .sample [7] = [] := by
  decide +kernel

end Sovereign.Receive

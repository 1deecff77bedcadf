import Sovereign.Lib.GrowOnly
import Sovereign.Sync.EngineSpec

/-!
# Strong eventual convergence

Over the faithful engine stands the abstract one: a grow-only set of `(entity, entry)` items.
`contents` reads it, and `engineGrowOnly` says that the engine is such a set: `Join` is union
whenever an `(entity, dot)` pair determines its entry.  Because an entity's list is ascending, the
set determines the list (`pointGet_eq_of_contents_eq`), so two replicas that were given the same
items, in whatever order, grouping and number of copies, answer every `PointGet` alike.

The arena of the source, which bounds the memory of one epoch, is not modelled: an allocation
always succeeds.
-/

namespace Sovereign.Sync

open Lib

def CRDTDelta.carried (d : CRDTDelta) : Set IncomingEntry := {x | x ∈ d.entries}

namespace Engine

variable (R : Runtime) {x : IncomingEntry} {U : Set IncomingEntry} {ds : List CRDTDelta}

/-- The abstract state of an engine: every `(entity, entry)` it holds. -/
def contents (e : Engine) : Set IncomingEntry := {x | x.entry ∈ e.pointGet R x.entityID}

def joinAll (e : Engine) (ds : List CRDTDelta) : Engine := ds.foldl (join R) e

variable {R}

variable {e e' : Engine}

theorem mem_contents : x ∈ e.contents R ↔ x.entry ∈ e.pointGet R x.entityID := Iff.rfl

instance (e : Engine) (x : IncomingEntry) : Decidable (x ∈ e.contents R) :=
  inferInstanceAs (Decidable (x.entry ∈ e.pointGet R x.entityID))

theorem contents_congr (hshards : e'.shards = e.shards)
    (hseed : e'.routeSeed = e.routeSeed) : e'.contents R = e.contents R := by
  ext x
  simp only [mem_contents, pointGet, routeShard, hshards, hseed]

theorem contents_advance (e : Engine) (c : UInt64) : (e.advanceLamportTo R c).contents R = e.contents R :=
  contents_congr (by simp) (by simp)

theorem WF.advance (h : e.WF R) (c : UInt64) : (e.advanceLamportTo R c).WF R := by
  rw [WF, advanceLamportTo_shards, advanceLamportTo_routeSeed]
  exact h

theorem pointGet_eq_of_contents_eq (h : e.WF R) (h' : e'.WF R)
    (hc : e.contents R = e'.contents R) (k : EntityID) : e.pointGet R k = e'.pointGet R k :=
  Ascending.ext_mem (h.ascending_pointGet k) (h'.ascending_pointGet k) fun x =>
    Set.ext_iff.mp hc ⟨k, x⟩

theorem contents_newEngine {n : ℕ} (hn : 0 < n) (seeds : ℕ → Seed) (routeSeed : Seed)
    (node : NodeID) (counter : UInt64) :
    (newEngine n seeds routeSeed node counter).contents R = ∅ := by
  ext x
  simp [mem_contents, pointGet_newEngine hn]

theorem contents_publish (h : e.WF R) {dot : CausalDot} (id : EntityID)
    (entry : CRDTEntry) (hfresh : ∀ x ∈ e.pointGet R id, x.dot ≠ dot) :
    (e.publish R dot id entry).contents R = insert ⟨id, e.stamp dot entry⟩ (e.contents R) := by
  ext x
  rw [mem_contents, (publish_spec h dot id entry hfresh).2, Set.mem_insert_iff, mem_contents]
  split
  · next hk =>
    rw [mem_insertFromEnd, ← hk]
    refine or_congr_left ⟨fun heq => ?_, fun heq => congrArg IncomingEntry.entry heq⟩
    obtain ⟨k, y⟩ := x
    exact congrArg₂ IncomingEntry.mk rfl heq
  · next hk =>
    refine (or_iff_right fun heq => hk ?_).symm
    exact congrArg IncomingEntry.entityID heq

theorem contents_mergeShard (h : e.WF R) {i : ℕ}
    {batches : List (EntityID × List CRDTEntry)} (hnd : (batches.map Prod.fst).Nodup)
    (hroute : ∀ b ∈ batches, e.routeShard R b.1 = i)
    (hasc : ∀ b ∈ batches, Ascending compareDots CRDTEntry.dot b.2) :
    e.contents R ⊆ (e.mergeShard R i batches).contents R ∧
      ∀ x ∈ (e.mergeShard R i batches).contents R, x ∈ e.contents R ∨
        ∃ b ∈ batches, b.1 = x.entityID ∧ x.entry ∈ b.2 := by
  obtain ⟨-, hin, hout⟩ := mergeShard_spec h hnd hroute hasc
  have hcases : ∀ k, (e.mergeShard R i batches).pointGet R k = e.pointGet R k ∨
      ∃ b ∈ batches, b.1 = k ∧ (e.mergeShard R i batches).pointGet R k
        = mergeEntries (e.pointGet R k) b.2 := fun k => by
    by_cases hk : k ∈ batches.map Prod.fst
    · obtain ⟨b, hb, rfl⟩ := List.mem_map.mp hk
      exact .inr ⟨b, hb, rfl, hin b hb⟩
    · exact .inl (hout k hk)
  constructor
  · intro x hx
    rw [mem_contents] at hx ⊢
    rcases hcases x.entityID with heq | ⟨b, hb, hk, heq⟩
    · rwa [heq]
    · rw [heq]
      exact (sublist_merge _ _).subset hx
  · intro x hx
    rw [mem_contents] at hx
    rcases hcases x.entityID with heq | ⟨b, hb, hk, heq⟩
    · rw [heq] at hx
      exact .inl hx
    · rw [heq] at hx
      exact (mem_of_mem_merge hx).imp_right fun hb' => ⟨b, hb, hk, hb'⟩

theorem contents_subset_join (h : e.WF R) (d : CRDTDelta) : e.contents R ⊆ (e.join R d).contents R := by
  intro x hx
  rw [mem_contents, (join_spec h d).2, mergeEntries,
    mem_merge (h.ascending_pointGet _) (ascending_blockOf _ _)]
  exact .inl hx

theorem contents_join_subset (h : e.WF R) (d : CRDTDelta) :
    (e.join R d).contents R ⊆ e.contents R ∪ d.carried := by
  intro x hx
  rw [mem_contents, (join_spec h d).2, mergeEntries] at hx
  exact (mem_of_mem_merge hx).imp_right fun hb => mem_of_mem_sortedIncoming (mem_blockOf.mp hb)

/-- **`Join` is union** on consistently keyed items. -/
theorem contents_join (h : e.WF R) (d : CRDTDelta)
    (hkey : Set.InjOn IncomingEntry.key (e.contents R ∪ d.carried)) :
    (e.join R d).contents R = e.contents R ∪ d.carried := by
  have hblock : ∀ x : IncomingEntry, x.entry ∈ blockOf R d.entries x.entityID ↔ x ∈ d.entries := by
    intro x
    refine ⟨fun hx => mem_of_mem_sortedIncoming (mem_blockOf.mp hx), fun hx => ?_⟩
    obtain ⟨y, hy, hk⟩ := exists_key_sortedIncoming (R := R) hx
    have : y = x := hkey (.inr (mem_of_mem_sortedIncoming hy)) (.inr hx) hk
    exact mem_blockOf.mpr (this ▸ hy)
  ext x
  rw [mem_contents, (join_spec h d).2, mergeEntries,
    mem_merge_of_keyed (h.ascending_pointGet _) (ascending_blockOf _ _), hblock]
  · rfl
  · intro a ha b hb hab
    have ha' : (⟨x.entityID, a⟩ : IncomingEntry) ∈ e.contents R ∪ d.carried := .inl ha
    have hb' : (⟨x.entityID, b⟩ : IncomingEntry) ∈ e.contents R ∪ d.carried :=
      .inr ((hblock ⟨x.entityID, b⟩).mp hb)
    exact congrArg IncomingEntry.entry (hkey ha' hb' (congrArg (Prod.mk x.entityID) hab))

/-- An item of the delta that has no rival under its key, neither held nor carried, is held
afterwards. -/
theorem mem_contents_join (h : e.WF R) {d : CRDTDelta}
    (hx : x ∈ d.carried) (honly : ∀ y ∈ e.contents R ∪ d.carried, y.key = x.key → y = x) :
    x ∈ (e.join R d).contents R := by
  obtain ⟨y, hy, hkey⟩ := exists_key_sortedIncoming (R := R) hx
  obtain rfl : y = x := honly y (.inr (mem_of_mem_sortedIncoming hy)) hkey
  -- the merge has some entry under the dot, and it can only be this one
  obtain ⟨w, hw, hdot⟩ := exists_key_merge (z := y.entry) (h.ascending_pointGet y.entityID)
    (ascending_blockOf d.entries y.entityID) (.inr (mem_blockOf.mpr hy))
  have hw' : (⟨y.entityID, w⟩ : IncomingEntry) ∈ (e.join R d).contents R := by
    rw [mem_contents, (join_spec h d).2, mergeEntries]
    exact hw
  have heq := honly ⟨y.entityID, w⟩ (contents_join_subset h d hw') (congrArg (Prod.mk y.entityID) hdot)
  exact heq ▸ hw'

theorem WF.injOn_key (h : e.WF R) : Set.InjOn IncomingEntry.key (e.contents R) := by
  rintro ⟨id, a⟩ ha ⟨id', b⟩ hb hk
  obtain ⟨rfl, hdot⟩ := Prod.mk.inj hk
  exact congrArg (IncomingEntry.mk id) ((h.ascending_pointGet id).eq_of_key_eq ha hb hdot)

def engineGrowOnly (R : Runtime) : GrowOnly Engine CRDTDelta IncomingEntry (EntityID × CausalDot)
    where
  key := IncomingEntry.key
  Ok := WF R
  holds := contents R
  carries := CRDTDelta.carried
  join := join R
  ok_join := fun _ d h => (join_spec h d).1
  holds_join := fun _ d h hkey => contents_join h d hkey

theorem wf_joinAll (h : e.WF R) (ds : List CRDTDelta) : (e.joinAll R ds).WF R :=
  (engineGrowOnly R).ok_joinAll h ds

def carriedAll (ds : List CRDTDelta) : Set IncomingEntry := {x | x ∈ ds.flatMap CRDTDelta.entries}

theorem carriesAll_eq (ds : List CRDTDelta) :
    (engineGrowOnly R).carriesAll ds = carriedAll ds := by
  ext x
  simp [GrowOnly.carriesAll, carriedAll, engineGrowOnly, CRDTDelta.carried]

theorem contents_joinAll (hU : Set.InjOn IncomingEntry.key U)
    (h : e.WF R) (he : e.contents R ⊆ U) (hds : carriedAll ds ⊆ U) :
    (e.joinAll R ds).contents R = e.contents R ∪ carriedAll ds := by
  rw [← carriesAll_eq (R := R)] at hds ⊢
  exact GrowOnly.holds_joinAll (G := engineGrowOnly R) hU h he hds

theorem pointGet_joinAll_congr (hU : Set.InjOn IncomingEntry.key U) (h : e.WF R) (h' : e'.WF R) (he : e.contents R ⊆ U)
    (hee : e.contents R = e'.contents R) {ds' : List CRDTDelta} (hds : carriedAll ds ⊆ U)
    (heq : carriedAll ds = carriedAll ds') (k : EntityID) :
    (e.joinAll R ds).pointGet R k = (e'.joinAll R ds').pointGet R k := by
  rw [← carriesAll_eq (R := R)] at hds
  rw [← carriesAll_eq (R := R), ← carriesAll_eq (R := R)] at heq
  exact pointGet_eq_of_contents_eq (wf_joinAll h ds) (wf_joinAll h' ds')
    (GrowOnly.holds_joinAll_congr (G := engineGrowOnly R) hU h h' he hee hds heq) k

end Engine

/-! ### Replicas -/

/-- What a replica is created with. -/
structure Replica where
  shardCount : ℕ
  shardCount_pos : 0 < shardCount
  seeds : ℕ → Seed
  routeSeed : Seed
  nodeID : NodeID
  initialCounter : UInt64

namespace Replica

def boot (r : Replica) : Engine :=
  newEngine r.shardCount r.seeds r.routeSeed r.nodeID r.initialCounter

variable {R : Runtime}

theorem wf_boot (r : Replica) : r.boot.WF R := Engine.wf_newEngine r.shardCount_pos _ _ _ _

theorem contents_boot (r : Replica) : r.boot.contents R = ∅ :=
  Engine.contents_newEngine r.shardCount_pos _ _ _ _

theorem contents_join_boot (r : Replica) {d : CRDTDelta} (hkey : Set.InjOn IncomingEntry.key d.carried) :
    (r.boot.join R d).contents R = d.carried := by
  have hempty := r.contents_boot (R := R)
  rw [Engine.contents_join r.wf_boot d (by rwa [hempty, Set.empty_union]), hempty, Set.empty_union]

theorem contents_joinAll_boot {ds : List CRDTDelta}
    (hkey : Set.InjOn IncomingEntry.key (Engine.carriedAll ds)) (r : Replica) :
    (r.boot.joinAll R ds).contents R = Engine.carriedAll ds := by
  have hempty := r.contents_boot (R := R)
  rw [Engine.contents_joinAll hkey r.wf_boot (hempty ▸ Set.empty_subset _) subset_rfl, hempty,
    Set.empty_union]

end Replica

/-! ### Convergence -/

/-- A schedule delivers exactly the items of a collection of deltas: in any order, cut into batches
in any way, each any positive number of times. -/
def Delivers (schedule collection : List CRDTDelta) : Prop :=
  ∀ x : IncomingEntry,
    x ∈ schedule.flatMap CRDTDelta.entries ↔ x ∈ collection.flatMap CRDTDelta.entries

theorem Delivers.carriedAll_eq {schedule collection : List CRDTDelta}
    (h : Delivers schedule collection) :
    Engine.carriedAll schedule = Engine.carriedAll collection := Set.ext h

/-- A list of deltas carries items of a collection only. -/
def DrawnFrom (ds collection : List CRDTDelta) : Prop :=
  ∀ x ∈ ds.flatMap CRDTDelta.entries, x ∈ collection.flatMap CRDTDelta.entries

/-- **Strong eventual convergence.**  Over a collection of deltas in which `(entity, dot)` determines
the entry, every replica that is delivered the collection has, for every entity, the strictly
ascending list of that entity's entries, whatever its configuration and schedule; and `Join` is
commutative, associative (two deltas are as good as their concatenation) and idempotent in every
state reached by joining deltas of the collection. -/
theorem join_converges (R : Runtime) (collection : List CRDTDelta)
    (hkey : KeyDetermines IncomingEntry.key (collection.flatMap CRDTDelta.entries)) :
    (∀ (ι : Type) (replicas : ι → Replica) (schedule : ι → List CRDTDelta),
      (∀ i, Delivers (schedule i) collection) →
      ∀ i k,
        Ascending compareDots CRDTEntry.dot
            (((replicas i).boot.joinAll R (schedule i)).pointGet R k) ∧
          (∀ x, x ∈ ((replicas i).boot.joinAll R (schedule i)).pointGet R k ↔
            ⟨k, x⟩ ∈ collection.flatMap CRDTDelta.entries) ∧
          ∀ j, ((replicas i).boot.joinAll R (schedule i)).pointGet R k
            = ((replicas j).boot.joinAll R (schedule j)).pointGet R k) ∧
    ∀ (r : Replica) (past : List CRDTDelta) (a b : CRDTDelta) (origin : NodeID),
      DrawnFrom (past ++ [a, b]) collection →
      ∀ k,
        let e := r.boot.joinAll R past
        ((e.join R a).join R b).pointGet R k = ((e.join R b).join R a).pointGet R k ∧
          ((e.join R a).join R b).pointGet R k
            = (e.join R ⟨origin, a.entries ++ b.entries⟩).pointGet R k ∧
          ((e.join R a).join R a).pointGet R k = (e.join R a).pointGet R k := by
  have hU : Set.InjOn IncomingEntry.key (Engine.carriedAll collection) :=
    fun x hx y hy hxy => hkey x hx y hy hxy
  constructor
  · intro ι replicas schedule hdel i k
    have hcontents : ∀ j, ((replicas j).boot.joinAll R (schedule j)).contents R
        = Engine.carriedAll collection := fun j => by
      rw [Replica.contents_joinAll_boot ((hdel j).carriedAll_eq ▸ hU), (hdel j).carriedAll_eq]
    have hwf : ∀ j, ((replicas j).boot.joinAll R (schedule j)).WF R :=
      fun j => Engine.wf_joinAll (replicas j).wf_boot _
    exact ⟨(hwf i).ascending_pointGet k, fun x => Set.ext_iff.mp (hcontents i) ⟨k, x⟩,
      fun j => Engine.pointGet_eq_of_contents_eq (hwf i) (hwf j)
        ((hcontents i).trans (hcontents j).symm) k⟩
  · intro r past a b origin hdrawn k e
    have hmem : ∀ x : IncomingEntry,
        x ∈ past.flatMap CRDTDelta.entries ∨ x ∈ a.entries ∨ x ∈ b.entries →
          x ∈ Engine.carriedAll collection := fun x hx => hdrawn x (by simpa using hx)
    have hpast : Engine.carriedAll past ⊆ Engine.carriedAll collection :=
      fun x hx => hmem x (.inl hx)
    have hwf : e.WF R := Engine.wf_joinAll r.wf_boot past
    have he : e.contents R ⊆ Engine.carriedAll collection := by
      rw [Replica.contents_joinAll_boot (hU.mono hpast)]
      exact hpast
    -- all four sides are runs of joins from `e`, with the same items on both sides
    have hrun : ∀ ds ds' : List CRDTDelta, Engine.carriedAll ds ⊆ Engine.carriedAll collection →
        Engine.carriedAll ds = Engine.carriedAll ds' →
        ∀ k, (e.joinAll R ds).pointGet R k = (e.joinAll R ds').pointGet R k :=
      fun _ _ => Engine.pointGet_joinAll_congr hU hwf hwf he rfl
    refine ⟨hrun [a, b] [b, a] ?_ ?_ k, hrun [a, b] [⟨origin, a.entries ++ b.entries⟩] ?_ ?_ k,
      hrun [a, a] [a] ?_ ?_ k⟩
    · exact fun x hx => hmem x (.inr (by simpa [Engine.carriedAll] using hx))
    · ext x
      simp [Engine.carriedAll, or_comm]
    · exact fun x hx => hmem x (.inr (by simpa [Engine.carriedAll] using hx))
    · ext x
      simp [Engine.carriedAll]
    · exact fun x hx => hmem x (.inr (.inl (by simpa [Engine.carriedAll] using hx)))
    · ext x
      simp [Engine.carriedAll]

def sampleNode (b : UInt8) : NodeID := FixedBytes.copyFrom 16 [b]

/-- An entry of a node, with its counter; its digest is that of the payload byte. -/
def sampleEntry (node : UInt8) (counter : UInt64) (payload : UInt8) : CRDTEntry where
  payloadDigest := FixedBytes.copyFrom 32 [payload]
  originNodeID := sampleNode node
  dotNodeID := sampleNode node
  dotCounter := counter
  systemTime := 0
  validTimeStart := 0
  validTimeEnd := 0
  assertionTime := 0
  decisionTime := 0
  h3Index := 0

def sampleItems : List IncomingEntry :=
  [⟨[7], sampleEntry 2 5 0⟩, ⟨[7], sampleEntry 1 9 1⟩, ⟨[8], sampleEntry 1 4 2⟩]

/-- A one-shard and a four-shard replica. -/
def sampleReplica (b : Bool) : Replica where
  shardCount := if b then 4 else 1
  shardCount_pos := by cases b <;> decide
  seeds := fun i => UInt64.ofNat i
  routeSeed := if b then 11 else 3
  nodeID := sampleNode (if b then 3 else 4)
  initialCounter := 0

/-- All items at once, or one by one from the last to the first, with one of them repeated. -/
def sampleSchedule : Bool → List CRDTDelta
  | true => [⟨sampleNode 1, sampleItems⟩]
  | false => (sampleItems.reverse ++ sampleItems.take 1).map fun x => ⟨sampleNode 1, [x]⟩

theorem join_converges_on_two_replicas :
    KeyDetermines IncomingEntry.key ((sampleSchedule true).flatMap CRDTDelta.entries) ∧
      ((sampleReplica true).boot.joinAll .sample (sampleSchedule true)).pointGet .sample [7]
        = ((sampleReplica false).boot.joinAll .sample (sampleSchedule false)).pointGet .sample [7] := by
  have hkey : KeyDetermines IncomingEntry.key
      ((sampleSchedule true).flatMap CRDTDelta.entries) := by
    unfold KeyDetermines
    decide
  have hdel : ∀ b, Delivers (sampleSchedule b) (sampleSchedule true) := by
    intro b x
    cases b
    · simp [sampleSchedule, sampleItems]
      tauto
    · rfl
  exact ⟨hkey, ((join_converges .sample (sampleSchedule true) hkey).1 Bool sampleReplica
    sampleSchedule hdel true [7]).2.2 false⟩

end Sovereign.Sync

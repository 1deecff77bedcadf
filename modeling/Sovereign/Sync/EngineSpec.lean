import Sovereign.Sync.Shards

/-!
# What each engine method does to the entity map

One specification per method of the engine, in terms of the map that `pointGet` reads:

* `insertLocal_spec` — the stamped entry is inserted at its place, if its dot is new to the entity;
* `join_spec` — every entity's list becomes its merge with the delta's block of that entity;
* `setShardCount_spec` — nothing changes;
* `state_spec`, `merkleRoot_state` — the merged trie and its Merkle root agree with the shards.

All of them keep `Engine.WF`.  Later modules use these statements and never unfold a method again.
-/

namespace Sovereign.Sync

open Lib

namespace Engine

variable (R : Runtime)
  {batches : List (EntityID × List CRDTEntry)} {x : IncomingEntry} {p : EntityID × List CRDTEntry}

def WF (e : Engine) : Prop := ShardsWF R e.routeSeed e.shards

/-- The entries of a delta for one entity, as `Join` merges them: sorted and without duplicates. -/
def blockOf (incoming : List IncomingEntry) (k : EntityID) : List CRDTEntry :=
  ((sortedIncoming R incoming).filter fun x => x.entityID = k).map IncomingEntry.entry

variable {R}

variable {e : Engine} {n : ℕ} {incoming : List IncomingEntry}

theorem WF.ascending_pointGet (h : e.WF R) (k : EntityID) :
    Ascending compareDots CRDTEntry.dot (e.pointGet R k) := ShardsWF.ascending_read h k

theorem wf_newEngine (hn : 0 < n) (seeds : ℕ → Seed) (routeSeed : Seed) (node : NodeID)
    (counter : UInt64) : (newEngine n seeds routeSeed node counter).WF R :=
  shardsWF_init routeSeed hn seeds

theorem pointGet_newEngine (hn : 0 < n) (seeds : ℕ → Seed) (routeSeed : Seed)
    (node : NodeID) (counter : UInt64) (k : EntityID) :
    (newEngine n seeds routeSeed node counter).pointGet R k = [] :=
  readShards_init routeSeed hn seeds k

/-! ### The clock leaves the map alone -/

@[simp] theorem nextDot_fst (e : Engine) :
    e.nextDot.1 = ⟨e.localNodeID, e.lamportCounter + 1⟩ := rfl

@[simp] theorem advanceLamportTo_shards (e : Engine) (c : UInt64) :
    (e.advanceLamportTo R c).shards = e.shards := by
  rw [advanceLamportTo]
  split <;> rfl

@[simp] theorem advanceLamportTo_routeSeed (e : Engine) (c : UInt64) :
    (e.advanceLamportTo R c).routeSeed = e.routeSeed := by
  rw [advanceLamportTo]
  split <;> rfl

@[simp] theorem advanceLamportTo_localNodeID (e : Engine) (c : UInt64) :
    (e.advanceLamportTo R c).localNodeID = e.localNodeID := by
  rw [advanceLamportTo]
  split <;> rfl

variable (R) in
/-- The clock part of `Join`: observe the counter of every incoming entry. -/
def observeAll (e : Engine) (incoming : List IncomingEntry) : Engine :=
  incoming.foldl (fun e x => e.advanceLamportTo R x.entry.dotCounter) e

theorem observeAll_frame (e : Engine) (incoming : List IncomingEntry) :
    (e.observeAll R incoming).shards = e.shards ∧
      (e.observeAll R incoming).routeSeed = e.routeSeed ∧
      (e.observeAll R incoming).localNodeID = e.localNodeID := by
  induction incoming generalizing e with
  | nil => exact ⟨rfl, rfl, rfl⟩
  | cons x xs ih =>
    obtain ⟨h1, h2, h3⟩ := ih (e.advanceLamportTo R x.entry.dotCounter)
    simp only [observeAll, List.foldl_cons] at h1 h2 h3 ⊢
    rw [h1, h2, h3]
    simp

/-! ### Merging one block -/

theorem mergeAdded_eq_zero {existing incoming : List CRDTEntry}
    (h : mergeAdded existing incoming = 0) : mergeEntries existing incoming = existing := by
  refine merge_eq_left_of_length ?_
  have hle : existing.length ≤ (mergeEntries existing incoming).length :=
    length_le_length_merge existing incoming
  simp only [mergeAdded, mergeEntries] at h hle
  omega

/-- `mergeExistingDot` merges one entity's entries and leaves the others. -/
theorem mergeExistingDot_spec {s : HAMT} (hs : s.WF R) (id : EntityID)
    (incoming : List CRDTEntry) :
    (mergeExistingDot R s id incoming).WF R ∧
      ∀ k, (mergeExistingDot R s id incoming).get R k
        = if k = id then mergeEntries (s.get R k) incoming else s.get R k := by
  rw [mergeExistingDot]
  split
  · next h =>
    refine ⟨hs, fun k => ?_⟩
    split
    · next hk => rw [hk, mergeAdded_eq_zero h]
    · rfl
  · next h =>
    have hne : mergeEntries (s.get R id) incoming ≠ [] := by
      intro e
      simp [mergeAdded, e] at h
    refine ⟨HAMT.wf_set hs id hne, fun k => ?_⟩
    split
    · next hk => rw [hk, HAMT.get_set_self hs id hne]
    · next hk => exact HAMT.get_set_of_ne hs hk hne

/-- The trie part of `perShardMerge`. -/
def mergeBlocks (R : Runtime) (s : HAMT) (batches : List (EntityID × List CRDTEntry)) : HAMT :=
  batches.foldl (fun t b => mergeExistingDot R t b.1 b.2) s

theorem perShardMerge_fst (s : HAMT) (batches : List (EntityID × List CRDTEntry)) :
    (perShardMerge R s batches).1 = mergeBlocks R s batches := by
  have hgen : ∀ acc : HAMT × ℕ × ℕ, (batches.foldl
      (fun acc b =>
        let added := mergeAdded (acc.1.get R b.1) b.2
        (mergeExistingDot R acc.1 b.1 b.2, acc.2.1 + added, acc.2.2 + (b.2.length - added)))
      acc).1 = mergeBlocks R acc.1 batches := by
    induction batches with
    | nil => exact fun _ => rfl
    | cons b bs ih => exact fun acc => ih _
  exact hgen (s, 0, 0)

/-- Merging blocks of distinct entities merges each entity with its own block. -/
theorem mergeBlocks_spec {s : HAMT} (hs : s.WF R) (hnd : (batches.map Prod.fst).Nodup) :
    (mergeBlocks R s batches).WF R ∧
      (∀ b ∈ batches, (mergeBlocks R s batches).get R b.1 = mergeEntries (s.get R b.1) b.2) ∧
      ∀ k, k ∉ batches.map Prod.fst → (mergeBlocks R s batches).get R k = s.get R k :=
  foldl_keyed (HAMT.WF R) (HAMT.get R) mergeEntries hnd
    (fun _ ht b _ => mergeExistingDot_spec ht b.1 b.2) hs

/-! ### `InsertLocal` -/

/-- Publishing puts the stamped entry in its place in the entity's list. -/
theorem publish_spec (h : e.WF R) (dot : CausalDot) (id : EntityID) (entry : CRDTEntry)
    (hfresh : ∀ x ∈ e.pointGet R id, x.dot ≠ dot) :
    (e.publish R dot id entry).WF R ∧
      ∀ k, (e.publish R dot id entry).pointGet R k
        = if k = id then insertFromEnd compareDots CRDTEntry.dot (e.pointGet R id)
            (e.stamp dot entry)
          else e.pointGet R k := by
  obtain ⟨s, hs, hr⟩ := ShardsWF.exists_shard h id
  have hasc : Ascending compareDots CRDTEntry.dot (insertFromEnd compareDots CRDTEntry.dot
      (e.pointGet R id) (e.stamp dot entry)) :=
    ascending_insertFromEnd (h.ascending_pointGet id) hfresh
  have hne : ∀ t : HAMT, insertFromEnd compareDots CRDTEntry.dot (t.get R id)
      (e.stamp dot entry) ≠ [] :=
    fun t => List.ne_nil_of_mem (mem_insertFromEnd.mpr (.inl rfl))
  refine shardsWF_modify h id hasc fun t ht => ?_
  have hts : s = t := by rw [hs] at ht; exact Option.some.inj ht
  subst hts
  have hwf := ShardsWF.tries h s (List.mem_of_getElem? hs)
  refine ⟨HAMT.wf_set hwf id (hne s), ?_, fun k hk => HAMT.get_set_of_ne hwf hk (hne s)⟩
  refine (HAMT.get_set_self hwf id (hne s)).trans ?_
  rw [← hr]
  rfl

/-- **`InsertLocal`** puts the stamped entry in its place in the entity's list. -/
theorem insertLocal_spec (h : e.WF R) (id : EntityID) (entry : CRDTEntry)
    (hfresh : ∀ x ∈ e.pointGet R id, x.dot ≠ e.nextDot.1) :
    (e.insertLocal R id entry).2.WF R ∧
      ∀ k, (e.insertLocal R id entry).2.pointGet R k
        = if k = id then insertFromEnd compareDots CRDTEntry.dot (e.pointGet R id)
            (e.stamp e.nextDot.1 entry)
          else e.pointGet R k :=
  publish_spec (e := e.nextDot.2) h e.nextDot.1 id entry hfresh

/-! ### `Join` -/

theorem sortedIncoming_ascending (incoming : List IncomingEntry) :
    Ascending compareKeys IncomingEntry.key (sortedIncoming R incoming) :=
  ascending_dedupAdjacent (R.sortIncoming_sorted incoming)

theorem mem_of_mem_sortedIncoming (h : x ∈ sortedIncoming R incoming) : x ∈ incoming :=
  (R.sortIncoming_perm incoming).mem_iff.mp (dedupAdjacent_subset _ x h)

/-- No key of a delta is lost by sorting and dropping duplicates. -/
theorem exists_key_sortedIncoming (h : x ∈ incoming) : ∃ y ∈ sortedIncoming R incoming, y.key = x.key :=
  exists_key_dedupAdjacent ((R.sortIncoming_perm incoming).mem_iff.mpr h)

theorem mem_blockOf {k : EntityID} {x : CRDTEntry} :
    x ∈ blockOf R incoming k ↔ ⟨k, x⟩ ∈ sortedIncoming R incoming := by
  rw [blockOf, List.mem_map]
  constructor
  · rintro ⟨y, hy, rfl⟩
    obtain ⟨hm, hk⟩ := List.mem_filter.mp hy
    have hk' : y.entityID = k := by simpa using hk
    exact hk' ▸ hm
  · exact fun hm => ⟨⟨k, x⟩, List.mem_filter.mpr ⟨hm, by simp⟩, rfl⟩

theorem ascending_blockOf (incoming : List IncomingEntry) (k : EntityID) :
    Ascending compareDots CRDTEntry.dot (blockOf R incoming k) := by
  have hfil := (sortedIncoming_ascending (R := R) incoming).filter fun x => x.entityID = k
  rw [Ascending, blockOf, List.pairwise_map]
  refine hfil.imp_of_mem fun {a b} ha hb hab => ?_
  have hak : a.entityID = k := by simpa using (List.mem_filter.mp ha).2
  have hbk : b.entityID = k := by simpa using (List.mem_filter.mp hb).2
  -- equal entities leave the comparison of dots
  simpa [compareKeys, IncomingEntry.key, hak, hbk, cmp_self] using hab

theorem weaklyAscending_entityID (incoming : List IncomingEntry) :
    WeaklyAscending (compare : EntityID → EntityID → Ordering) IncomingEntry.entityID
      (sortedIncoming R incoming) := by
  refine (sortedIncoming_ascending (R := R) incoming).imp fun {a b} hab hgt => ?_
  have hgt' : compare a.entityID b.entityID = .gt := hgt
  have : compareKeys a.key b.key = .gt := by
    simp [compareKeys, IncomingEntry.key, hgt', Ordering.then]
  rw [hab] at this
  cases this

/-- The entity blocks of a delta are its non-empty `blockOf` lists, one per entity. -/
theorem entityBlocks_spec (incoming : List IncomingEntry) :
    ((entityBlocks (sortedIncoming R incoming)).map Prod.fst).Nodup ∧
      ∀ k es, (k, es) ∈ entityBlocks (sortedIncoming R incoming) ↔
        es = blockOf R incoming k ∧ es ≠ [] := by
  have hfib := isFibres_groupRuns (weaklyAscending_entityID (R := R) incoming)
  constructor
  · rw [entityBlocks, List.map_map]
    exact hfib.nodup
  · intro k es
    rw [entityBlocks, List.mem_map]
    constructor
    · rintro ⟨⟨k', xs⟩, hm, he⟩
      obtain ⟨rfl, rfl⟩ := Prod.mk.injEq .. ▸ he
      obtain ⟨hxs, hne⟩ := (hfib.mem_iff _ _).mp hm
      exact ⟨by rw [hxs, blockOf], by simpa using hne⟩
    · rintro ⟨rfl, hne⟩
      refine ⟨(k, (sortedIncoming R incoming).filter fun x => x.entityID = k), ?_, rfl⟩
      exact (hfib.mem_iff _ _).mpr ⟨rfl, by simpa [blockOf] using hne⟩

theorem join_of_nonempty {delta : CRDTDelta} (hne : delta.entries ≠ []) :
    (e.join R delta).shards = e.shards.mapIdx (fun i s => mergeBlocks R s
        ((entityBlocks (sortedIncoming R delta.entries)).filter fun b => e.routeShard R b.1 = i)) ∧
      (e.join R delta).routeSeed = e.routeSeed := by
  obtain ⟨hsh, hrs, -⟩ := observeAll_frame (R := R) e delta.entries
  have hroute : ∀ k, (e.observeAll R delta.entries).routeShard R k = e.routeShard R k := fun k => by
    rw [routeShard, routeShard, hsh, hrs]
  rw [join]
  rw [if_neg (by simpa using hne)]
  rw [← observeAll]
  refine ⟨?_, hrs⟩
  simp only [hsh, hroute, List.mapIdx_eq_zipIdx_map, List.map_map]
  exact List.map_congr_left fun p _ => perShardMerge_fst _ _

/-- **`Join`** merges every entity's list with the delta's block of that entity. -/
theorem join_spec (h : e.WF R) (delta : CRDTDelta) :
    (e.join R delta).WF R ∧
      ∀ k, (e.join R delta).pointGet R k
        = mergeEntries (e.pointGet R k) (blockOf R delta.entries k) := by
  by_cases hemp : delta.entries = []
  · have hblock : ∀ k, blockOf R delta.entries k = [] := by
      intro k
      rw [List.eq_nil_iff_forall_not_mem]
      intro x hx
      have := mem_of_mem_sortedIncoming (mem_blockOf.mp hx)
      rw [hemp] at this
      cases this
    have hjoin : e.join R delta = e := by simp [join, hemp]
    rw [hjoin]
    exact ⟨h, fun k => by rw [hblock k, mergeEntries, merge_nil_right]⟩
  obtain ⟨hshards, hseed⟩ := join_of_nonempty (R := R) (e := e) hemp
  obtain ⟨hnd, hblocks⟩ := entityBlocks_spec (R := R) delta.entries
  have hlen : (e.join R delta).shards.length = e.shards.length := by
    rw [hshards, List.length_mapIdx]
  have hgoal := shardsWF_of_pointwise h hlen
    (g := fun k => mergeEntries (e.pointGet R k) (blockOf R delta.entries k))
    (fun k => ascending_merge (h.ascending_pointGet k) (ascending_blockOf _ k)) ?_
  · rw [WF, hseed]
    refine ⟨hgoal.1, fun k => ?_⟩
    rw [pointGet_eq_readShards, hseed]
    exact hgoal.2 k
  intro i s hs
  -- the blocks routed to this shard
  set mine := (entityBlocks (sortedIncoming R delta.entries)).filter
    fun b => e.routeShard R b.1 = i with hmine
  have hwf := ShardsWF.tries h s (List.mem_of_getElem? hs)
  have hndm : (mine.map Prod.fst).Nodup := hnd.sublist (List.filter_sublist.map _)
  obtain ⟨hwf', hin, hout⟩ := mergeBlocks_spec hwf hndm
  refine ⟨mergeBlocks R s mine, ?_, hwf', fun k => ?_⟩
  · rw [hshards, List.getElem?_mapIdx, hs]
    rfl
  have hget := (ShardsWF.shardsLocated h).get_eq hs k
  by_cases hr : route R e.routeSeed e.shards.length k = i
  · rw [if_pos hr] at hget ⊢
    by_cases hb : blockOf R delta.entries k = []
    · have hk : k ∉ mine.map Prod.fst := by
        intro hk
        obtain ⟨⟨k', es⟩, hm, rfl⟩ := List.mem_map.mp hk
        obtain ⟨hes, hne⟩ := (hblocks k' es).mp (List.mem_filter.mp hm).1
        exact hne (hes.trans hb)
      rw [hout k hk, hget, hb, mergeEntries, merge_nil_right]
      rfl
    · have hm : (k, blockOf R delta.entries k) ∈ mine :=
        List.mem_filter.mpr ⟨(hblocks k _).mpr ⟨rfl, hb⟩, decide_eq_true hr⟩
      rw [hin _ hm, hget]
      rfl
  · rw [if_neg hr] at hget ⊢
    have hk : k ∉ mine.map Prod.fst := by
      intro hk
      obtain ⟨⟨k', es⟩, hm, rfl⟩ := List.mem_map.mp hk
      exact hr (of_decide_eq_true (List.mem_filter.mp hm).2)
    rw [hout k hk, hget]

/-! ### `SetShardCount` -/

theorem redistribute_step {routeSeed : Seed} {shards : List HAMT}
    (h : ShardsWF R routeSeed shards ∧ shards.length = n) (hasc : Ascending compareDots CRDTEntry.dot p.2) :
    let out := shards.modify (route R routeSeed n p.1) fun cur => mergeExistingDot R cur p.1 p.2
    (ShardsWF R routeSeed out ∧ out.length = n) ∧
      ∀ k, readShards R routeSeed out k
        = if k = p.1 then mergeEntries (readShards R routeSeed shards k) p.2
          else readShards R routeSeed shards k := by
  obtain ⟨hwf, rfl⟩ := h
  have hmod := shardsWF_modify hwf p.1 (f := fun cur => mergeExistingDot R cur p.1 p.2)
    (ascending_merge (hwf.ascending_read p.1) hasc) fun s hs => by
      obtain ⟨hw, hget⟩ := mergeExistingDot_spec (hwf.tries s (List.mem_of_getElem? hs)) p.1 p.2
      refine ⟨hw, ?_, fun k hk => by rw [hget, if_neg hk]⟩
      rw [hget, if_pos rfl, readShards, hs]
      rfl
  refine ⟨⟨hmod.1, List.length_modify _ _ _⟩, fun k => (hmod.2 k).trans ?_⟩
  split
  · next hk => rw [hk]; rfl
  · rfl

theorem modify_foldl {β : Type*} (f : HAMT → β → HAMT) (i : ℕ) (bs : List β) (shards : List HAMT) :
    shards.modify i (fun s => bs.foldl f s)
      = bs.foldl (fun shards b => shards.modify i fun s => f s b) shards := by
  induction bs generalizing shards with
  | nil => exact List.modify_id i shards
  | cons b bs ih =>
    rw [List.foldl_cons, ← ih, List.modify_modify_eq]
    rfl

/-- **One shard of `Join`**: merging blocks of entities of the shard merges each entity with its own
block. -/
theorem mergeShard_spec (h : e.WF R) {i : ℕ}
    (hnd : (batches.map Prod.fst).Nodup) (hroute : ∀ b ∈ batches, e.routeShard R b.1 = i)
    (hasc : ∀ b ∈ batches, Ascending compareDots CRDTEntry.dot b.2) : (e.mergeShard R i batches).WF R ∧
      (∀ b ∈ batches, (e.mergeShard R i batches).pointGet R b.1
        = mergeEntries (e.pointGet R b.1) b.2) ∧
      ∀ k, k ∉ batches.map Prod.fst → (e.mergeShard R i batches).pointGet R k = e.pointGet R k := by
  have hshards : (e.mergeShard R i batches).shards = batches.foldl
      (fun shards b => shards.modify i fun s => mergeExistingDot R s b.1 b.2) e.shards := by
    simp only [mergeShard, perShardMerge_fst]
    exact modify_foldl (fun s (b : EntityID × List CRDTEntry) => mergeExistingDot R s b.1 b.2) i
      batches e.shards
  obtain ⟨⟨hwf, -⟩, hin, hout⟩ := foldl_keyed
    (fun shards => ShardsWF R e.routeSeed shards ∧ shards.length = e.shards.length)
    (readShards R e.routeSeed) mergeEntries hnd
    (fun shards hs b hb => by
      have hstep := redistribute_step hs (hasc b hb)
      rw [show route R e.routeSeed e.shards.length b.1 = i from hroute b hb] at hstep
      exact hstep)
    (s := e.shards) ⟨h, rfl⟩
  rw [← hshards] at hwf hin hout
  exact ⟨hwf, hin, hout⟩

theorem WF.pointGet_eq_nil (h : e.WF R) {k : EntityID}
    (hk : k ∉ e.allPairs.map Prod.fst) : e.pointGet R k = [] := by
  by_contra hne
  exact hk (List.mem_map.mpr ⟨(k, e.pointGet R k), (ShardsWF.mem_walk_iff h).mpr ⟨rfl, hne⟩, rfl⟩)

theorem WF.pointGet_of_mem (h : e.WF R)
    (hp : p ∈ e.allPairs) : e.pointGet R p.1 = p.2 := ((ShardsWF.mem_walk_iff h).mp hp).1

/-- **`SetShardCount`** moves the entries and changes no entity's list. -/
theorem setShardCount_spec {e' : Engine} (h : e.WF R) {seeds : ℕ → Seed}
    (hset : e.setShardCount R n seeds = some e') :
    e'.WF R ∧ ∀ k, e'.pointGet R k = e.pointGet R k := by
  rw [setShardCount] at hset
  split at hset
  · cases hset
  next hpow =>
  have hn : 0 < n := by omega
  split at hset
  · cases hset
    exact ⟨h, fun _ => rfl⟩
  cases hset
  have hasc : ∀ p ∈ e.allPairs, Ascending compareDots CRDTEntry.dot p.2 := fun p hp => by
    rw [← h.pointGet_of_mem hp]
    exact h.ascending_pointGet p.1
  obtain ⟨⟨hwf, -⟩, hin, hout⟩ := foldl_keyed
    (fun shards => ShardsWF R e.routeSeed shards ∧ shards.length = n)
    (readShards R e.routeSeed) mergeEntries (ShardsWF.nodup_walk h)
    (fun shards hs p hp => redistribute_step hs (hasc p hp))
    (s := initShards n seeds) ⟨shardsWF_init e.routeSeed hn seeds, initShards_length n seeds⟩
  have hinit := readShards_init (R := R) e.routeSeed hn seeds
  refine ⟨hwf, fun k => ?_⟩
  by_cases hk : k ∈ e.allPairs.map Prod.fst
  · obtain ⟨p, hp, rfl⟩ := List.mem_map.mp hk
    rw [h.pointGet_of_mem hp]
    refine (hin p hp).trans ?_
    rw [hinit, mergeEntries, merge_nil_left]
  · rw [h.pointGet_eq_nil hk]
    exact (hout k hk).trans (hinit k)

/-! ### The merged trie and the Merkle root -/

/-- **`State`** is a well-formed trie with the lists `pointGet` reads. -/
theorem state_spec (h : e.WF R) (seed : Seed) :
    (e.state R seed).WF R ∧ ∀ k, (e.state R seed).get R k = e.pointGet R k := by
  obtain ⟨hwf, hin, hout⟩ := foldl_keyed (HAMT.WF R) (HAMT.get R)
    (fun _ es => es) (ShardsWF.nodup_walk h)
    (fun t ht p hp => by
      have hne : p.2 ≠ [] := ((ShardsWF.mem_walk_iff h).mp hp).2
      refine ⟨HAMT.wf_set ht p.1 hne, fun k => ?_⟩
      split
      · next hk => rw [hk, HAMT.get_set_self ht p.1 hne]
      · next hk => exact HAMT.get_set_of_ne ht hk hne)
    (HAMT.wf_new seed)
  refine ⟨hwf, fun k => ?_⟩
  by_cases hk : k ∈ e.allPairs.map Prod.fst
  · obtain ⟨p, hp, rfl⟩ := List.mem_map.mp hk
    exact (hin p hp).trans (h.pointGet_of_mem hp).symm
  · exact (hout k hk).trans ((HAMT.get_new seed k).trans (h.pointGet_eq_nil hk).symm)

/-- The walk over the shards and the walk of the merged trie visit the same pairs. -/
theorem allPairs_perm_state (h : e.WF R) (seed : Seed) : e.allPairs.Perm (e.state R seed).toList := by
  obtain ⟨hwf, hget⟩ := state_spec h seed
  refine (List.perm_ext_iff_of_nodup (ShardsWF.nodup_walk h).of_map
    (HAMT.WF.nodup_keys hwf).of_map).mpr fun p => ?_
  obtain ⟨k, es⟩ := p
  rw [HAMT.mem_toList_iff hwf, hget k]
  exact ShardsWF.mem_walk_iff h

theorem hashDotPairs_congr {xs ys : List CausalDot} (h : xs.Perm ys) :
    hashDotPairs R xs = hashDotPairs R ys := by
  have hemp : xs.isEmpty = ys.isEmpty := by
    rw [Bool.eq_iff_iff, List.isEmpty_iff, List.isEmpty_iff]
    exact ⟨fun e => (e ▸ h).symm.eq_nil, fun e => (e ▸ h).eq_nil⟩
  rw [hashDotPairs, hashDotPairs, hemp, sortDots, sortDots, sortBy_congr h]

/-- **`MerkleRootFromShards`** is the Merkle root of the merged trie. -/
theorem merkleRoot_state (h : e.WF R) (seed : Seed) :
    e.merkleRootFromShards R = (e.state R seed).merkleRoot R :=
  hashDotPairs_congr ((allPairs_perm_state h seed).flatMap_right _)

end Engine

end Sovereign.Sync

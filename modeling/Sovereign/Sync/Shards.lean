import Sovereign.Sync.Engine

/-!
# Sharded tries as one map from entities to entries

`ShardsWF` is the representation invariant of a list of shard tries under a routing seed: every
trie is well-formed, an entity has entries only in the shard it routes to, and every entry list is
strictly ascending by dot.  Under it the shards are one map, read by `readShards`
(which `PointGet` computes), and

* `shardsWF_of_pointwise` — a rewrite of all shards that gives every entity a new ascending list in
  its own shard keeps the invariant and reads back as that list;
* `shardsWF_modify` — the same for a change of one entity;
* `mem_walk_iff`, `nodup_walk` — what a walk over all shards visits.
-/

namespace Sovereign.Sync

open Lib

namespace Engine

variable (R : Runtime) {es : List CRDTEntry}

/-- The entries of an entity in the shard it routes to. -/
def readShards (routeSeed : Seed) (shards : List HAMT) (entityID : EntityID) : List CRDTEntry :=
  match shards[route R routeSeed shards.length entityID]? with
  | none => []
  | some shard => shard.get R entityID

/-- The representation invariant of sharded tries. -/
structure ShardsWF (routeSeed : Seed) (shards : List HAMT) : Prop where
  nonempty : 0 < shards.length
  tries : ∀ s ∈ shards, s.WF R
  located : ∀ i s, shards[i]? = some s → ∀ k, s.get R k ≠ [] → route R routeSeed shards.length k = i
  ascending : ∀ s ∈ shards, ∀ k, Ascending compareDots CRDTEntry.dot (s.get R k)

/-- The part of it that does not depend on the order of the entries. -/
structure ShardsLocated (routeSeed : Seed) (shards : List HAMT) : Prop where
  nonempty : 0 < shards.length
  tries : ∀ s ∈ shards, s.WF R
  located : ∀ i s, shards[i]? = some s → ∀ k, s.get R k ≠ [] → route R routeSeed shards.length k = i

variable {R} {routeSeed : Seed} {shards shards' : List HAMT}

theorem ShardsWF.shardsLocated (h : ShardsWF R routeSeed shards) : ShardsLocated R routeSeed shards :=
  ⟨h.nonempty, h.tries, h.located⟩

theorem pointGet_eq_readShards (e : Engine) (id : EntityID) :
    e.pointGet R id = readShards R e.routeSeed e.shards id := rfl

theorem ShardsLocated.exists_shard (h : ShardsLocated R routeSeed shards) (k : EntityID) :
    ∃ s, shards[route R routeSeed shards.length k]? = some s ∧
      readShards R routeSeed shards k = s.get R k := by
  have hlt := route_lt R routeSeed h.nonempty k
  refine ⟨shards.get ⟨_, hlt⟩, by simp [hlt], ?_⟩
  simp [readShards, hlt]

theorem ShardsWF.exists_shard (h : ShardsWF R routeSeed shards) (k : EntityID) :
    ∃ s, shards[route R routeSeed shards.length k]? = some s ∧
      readShards R routeSeed shards k = s.get R k := h.shardsLocated.exists_shard k

theorem ShardsWF.ascending_read (h : ShardsWF R routeSeed shards) (k : EntityID) :
    Ascending compareDots CRDTEntry.dot (readShards R routeSeed shards k) := by
  obtain ⟨s, hs, hr⟩ := h.exists_shard k
  exact hr ▸ h.ascending s (List.mem_of_getElem? hs) k

/-- A shard holds what its entities read, and nothing of the others. -/
theorem ShardsLocated.get_eq (h : ShardsLocated R routeSeed shards) {i : ℕ} {s : HAMT}
    (hs : shards[i]? = some s) (k : EntityID) :
    s.get R k = if route R routeSeed shards.length k = i then readShards R routeSeed shards k
      else [] := by
  split
  · next hi =>
    obtain ⟨t, ht, hr⟩ := h.exists_shard k
    rw [hi, hs, Option.some.injEq] at ht
    rw [hr, ht]
  · next hi =>
    by_contra hne
    exact hi (h.located i s hs k hne)

/-- **Pointwise rewrite.**  If every shard becomes a well-formed trie that holds `g k` for the
entities routed to it, the invariant is kept and `g` is what the shards read. -/
theorem shardsWF_of_pointwise (h : ShardsWF R routeSeed shards)
    (hlen : shards'.length = shards.length) {g : EntityID → List CRDTEntry}
    (hg : ∀ k, Ascending compareDots CRDTEntry.dot (g k))
    (hstep : ∀ i s, shards[i]? = some s → ∃ s', shards'[i]? = some s' ∧ s'.WF R ∧
      ∀ k, s'.get R k = if route R routeSeed shards.length k = i then g k else []) :
    ShardsWF R routeSeed shards' ∧ ∀ k, readShards R routeSeed shards' k = g k := by
  have hback : ∀ i s', shards'[i]? = some s' → s'.WF R ∧
      ∀ k, s'.get R k = if route R routeSeed shards.length k = i then g k else [] := by
    intro i s' hs'
    have hi : i < shards.length := hlen ▸ (List.getElem?_eq_some_iff.mp hs').1
    obtain ⟨t, ht, hwf, hget⟩ := hstep i (shards.get ⟨i, hi⟩) (by simp [hi])
    rw [hs', Option.some.injEq] at ht
    exact ht ▸ ⟨hwf, hget⟩
  have hwf' : ShardsWF R routeSeed shards' := by
    refine ⟨hlen ▸ h.nonempty, ?_, ?_, ?_⟩
    · intro s' hs'
      obtain ⟨i, hi⟩ := List.getElem?_of_mem hs'
      exact (hback i s' hi).1
    · intro i s' hs' k hne
      rw [hlen]
      by_contra hk
      rw [(hback i s' hs').2 k, if_neg hk] at hne
      exact hne rfl
    · intro s' hs' k
      obtain ⟨i, hi⟩ := List.getElem?_of_mem hs'
      rw [(hback i s' hi).2 k]
      split
      · exact hg k
      · exact ascending_nil
  refine ⟨hwf', fun k => ?_⟩
  obtain ⟨s', hs', hr⟩ := hwf'.exists_shard k
  rw [hr, (hback _ s' hs').2 k, if_pos (by rw [hlen])]

/-- **One entity changes.** -/
theorem shardsWF_modify (h : ShardsWF R routeSeed shards) (id : EntityID) {f : HAMT → HAMT}
    {v : List CRDTEntry} (hv : Ascending compareDots CRDTEntry.dot v)
    (hf : ∀ s, shards[route R routeSeed shards.length id]? = some s →
      (f s).WF R ∧ (f s).get R id = v ∧ ∀ k, k ≠ id → (f s).get R k = s.get R k) :
    ShardsWF R routeSeed (shards.modify (route R routeSeed shards.length id) f) ∧
      ∀ k, readShards R routeSeed (shards.modify (route R routeSeed shards.length id) f) k
        = if k = id then v else readShards R routeSeed shards k := by
  refine shardsWF_of_pointwise h (List.length_modify _ _ _) (fun k => ?_) fun i s hs => ?_
  · split
    · exact hv
    · exact h.ascending_read k
  by_cases hi : route R routeSeed shards.length id = i
  · obtain ⟨hwf, hid, hother⟩ := hf s (hi ▸ hs)
    refine ⟨f s, by rw [hi, List.getElem?_modify_eq, hs]; rfl, hwf, fun k => ?_⟩
    by_cases hk : k = id
    · subst hk
      simp [hid, hi]
    · rw [hother k hk, h.shardsLocated.get_eq hs k]
      simp [hk]
  · refine ⟨s, by simp [hi, hs], h.tries s (List.mem_of_getElem? hs),
      fun k => ?_⟩
    rw [h.shardsLocated.get_eq hs k]
    by_cases hk : k = id
    · subst hk
      simp [hi]
    · simp [hk]

/-! ### Fresh shards -/

@[simp] theorem initShards_length (n : ℕ) (seeds : ℕ → Seed) : (initShards n seeds).length = n := by
  simp [initShards]

theorem shardsWF_init (routeSeed : Seed) {n : ℕ} (hn : 0 < n) (seeds : ℕ → Seed) :
    ShardsWF R routeSeed (initShards n seeds) := by
  have hall : ∀ s ∈ initShards n seeds, ∃ seed, s = HAMT.new seed := by
    intro s hs
    obtain ⟨i, -, rfl⟩ := List.mem_map.mp hs
    exact ⟨seeds i, rfl⟩
  refine ⟨by simpa using hn, ?_, ?_, ?_⟩
  · intro s hs
    obtain ⟨seed, rfl⟩ := hall s hs
    exact HAMT.wf_new seed
  · intro i s hs k hne
    obtain ⟨seed, rfl⟩ := hall s (List.mem_of_getElem? hs)
    exact absurd (HAMT.get_new seed k) hne
  · intro s hs k
    obtain ⟨seed, rfl⟩ := hall s hs
    rw [HAMT.get_new]
    exact ascending_nil

theorem readShards_init (routeSeed : Seed) {n : ℕ} (hn : 0 < n) (seeds : ℕ → Seed)
    (k : EntityID) :
    readShards R routeSeed (initShards n seeds) k = [] := by
  obtain ⟨s, hs, hr⟩ := (shardsWF_init (R := R) routeSeed hn seeds).exists_shard k
  obtain ⟨i, -, rfl⟩ := List.mem_map.mp (List.mem_of_getElem? hs)
  rw [hr, HAMT.get_new]

/-! ### Walking all shards -/

theorem ShardsLocated.mem_walk_iff (h : ShardsLocated R routeSeed shards) {k : EntityID} :
    (k, es) ∈ shards.flatMap HAMT.toList ↔ readShards R routeSeed shards k = es ∧ es ≠ [] := by
  rw [List.mem_flatMap]
  constructor
  · rintro ⟨s, hs, hm⟩
    obtain ⟨hget, hne⟩ := (HAMT.mem_toList_iff (h.tries s hs)).mp hm
    obtain ⟨i, hi⟩ := List.getElem?_of_mem hs
    have hroute := h.located i s hi k (hget ▸ hne)
    rw [h.get_eq hi k, if_pos hroute] at hget
    exact ⟨hget, hne⟩
  · rintro ⟨hr, hne⟩
    obtain ⟨s, hs, hrs⟩ := h.exists_shard k
    have hmem := List.mem_of_getElem? hs
    exact ⟨s, hmem, (HAMT.mem_toList_iff (h.tries s hmem)).mpr ⟨hrs ▸ hr, hne⟩⟩

theorem ShardsLocated.nodup_walk (h : ShardsLocated R routeSeed shards) :
    ((shards.flatMap HAMT.toList).map Prod.fst).Nodup := by
  rw [List.map_flatMap, List.nodup_flatMap]
  refine ⟨fun s hs => (h.tries s hs).nodup_keys, ?_⟩
  rw [List.pairwise_iff_getElem]
  intro i j hi hj hij k hki hkj
  have hwi := (HAMT.mem_keys_iff (h.tries _ (List.getElem_mem hi))).mp hki
  have hwj := (HAMT.mem_keys_iff (h.tries _ (List.getElem_mem hj))).mp hkj
  have := (h.located i _ (List.getElem?_eq_getElem hi) k hwi).symm.trans
    (h.located j _ (List.getElem?_eq_getElem hj) k hwj)
  omega

theorem ShardsWF.mem_walk_iff (h : ShardsWF R routeSeed shards) {k : EntityID} :
    (k, es) ∈ shards.flatMap HAMT.toList ↔ readShards R routeSeed shards k = es ∧ es ≠ [] :=
  h.shardsLocated.mem_walk_iff

theorem ShardsWF.nodup_walk (h : ShardsWF R routeSeed shards) :
    ((shards.flatMap HAMT.toList).map Prod.fst).Nodup := h.shardsLocated.nodup_walk

end Engine

end Sovereign.Sync

import Sovereign.Sync.EngineSpec

/-!
# The engine only grows

Local inserts and joins never take an entry away, whatever the clock does: an insert puts its entry
among those of its entity even under a dot that is taken, and a merge keeps the list it merges into.
`Mounted` is the part of the representation that this rests on — there are shards, and each of them is a
well-formed trie — and it is kept without conditions, unlike the order of the entries.
-/

namespace Sovereign.Sync

open Lib

namespace Engine

variable (R : Runtime)

/-- There are shards, and they are tries. -/
structure Mounted (e : Engine) : Prop where
  nonempty : 0 < e.shards.length
  tries : ∀ s ∈ e.shards, s.WF R

/-- What changes the entries of a running engine: a local insert or a join. -/
inductive Change where
  | insertLocal (entityID : EntityID) (entry : CRDTEntry)
  | join (delta : CRDTDelta)

def change (e : Engine) : Change → Engine
  | .insertLocal entityID entry => (e.insertLocal R entityID entry).2
  | .join delta => e.join R delta

variable {R} {e : Engine}

theorem WF.mounted (h : e.WF R) : e.Mounted R := ⟨ShardsWF.nonempty h, ShardsWF.tries h⟩

theorem Mounted.exists_shard (h : e.Mounted R) (k : EntityID) :
    ∃ s, e.shards[e.routeShard R k]? = some s ∧ s.WF R ∧ e.pointGet R k = s.get R k := by
  have hlt : e.routeShard R k < e.shards.length := route_lt R e.routeSeed h.nonempty k
  have hs : e.shards[e.routeShard R k]? = some (e.shards.get ⟨_, hlt⟩) := by simp [hlt]
  refine ⟨_, hs, h.tries _ (List.mem_of_getElem? hs), ?_⟩
  simp only [pointGet, hs]

/-- An insert puts its entry into the list of its entity and leaves the others alone. -/
theorem Mounted.publish (h : e.Mounted R) (dot : CausalDot) (id : EntityID) (entry : CRDTEntry) :
    (e.publish R dot id entry).Mounted R ∧
      ∀ k, (e.publish R dot id entry).pointGet R k
        = if k = id then insertFromEnd compareDots CRDTEntry.dot (e.pointGet R id) (e.stamp dot entry)
          else e.pointGet R k := by
  have hne : ∀ s : HAMT, insertFromEnd compareDots CRDTEntry.dot (s.get R id) (e.stamp dot entry) ≠ [] :=
    fun s => List.ne_nil_of_mem (mem_insertFromEnd.mpr (.inl rfl))
  set f : HAMT → HAMT := fun s =>
    s.set R id (insertFromEnd compareDots CRDTEntry.dot (s.get R id) (e.stamp dot entry)) with hf
  have hlen : (e.publish R dot id entry).shards.length = e.shards.length := List.length_modify _ _ _
  have hroute : ∀ k, (e.publish R dot id entry).routeShard R k = e.routeShard R k := fun k => by
    rw [routeShard, routeShard, hlen]
    rfl
  constructor
  · refine ⟨hlen ▸ h.nonempty, fun s hs => ?_⟩
    obtain ⟨i, hi⟩ := List.getElem?_of_mem hs
    rw [show (e.publish R dot id entry).shards = e.shards.modify (e.routeShard R id) f from rfl,
      List.getElem?_modify] at hi
    obtain ⟨t, ht, rfl⟩ := Option.map_eq_some_iff.mp hi
    have hwf := h.tries t (List.mem_of_getElem? ht)
    split
    · exact HAMT.wf_set hwf id (hne t)
    · exact hwf
  · intro k
    obtain ⟨s, hs, hwf, hget⟩ := h.exists_shard k
    rw [pointGet, hroute, show (e.publish R dot id entry).shards = e.shards.modify (e.routeShard R id) f from rfl,
      List.getElem?_modify, hs]
    by_cases hk : k = id
    · subst hk
      rw [if_pos rfl, hget]
      simpa using HAMT.get_set_self hwf k (hne s)
    · rw [if_neg hk, hget]
      by_cases hr : e.routeShard R id = e.routeShard R k
      · simpa [hr] using HAMT.get_set_of_ne hwf hk (hne s)
      · simp [hr]

theorem Mounted.insertLocal (h : e.Mounted R) (id : EntityID) (entry : CRDTEntry) :
    (e.insertLocal R id entry).2.Mounted R ∧
      ∀ k, (e.insertLocal R id entry).2.pointGet R k
        = if k = id then insertFromEnd compareDots CRDTEntry.dot (e.pointGet R id) (e.stamp e.nextDot.1 entry)
          else e.pointGet R k :=
  Mounted.publish (e := e.nextDot.2) ⟨h.nonempty, h.tries⟩ e.nextDot.1 id entry

theorem Mounted.join (h : e.Mounted R) (delta : CRDTDelta) :
    (e.join R delta).Mounted R ∧ ∀ k, ∃ block, (e.join R delta).pointGet R k = mergeEntries (e.pointGet R k) block := by
  by_cases hemp : delta.entries = []
  · have hjoin : e.join R delta = e := by simp [Engine.join, hemp]
    rw [hjoin]
    exact ⟨h, fun k => ⟨[], (merge_nil_right _).symm⟩⟩
  obtain ⟨hshards, hseed⟩ := join_of_nonempty (R := R) (e := e) hemp
  obtain ⟨hnd, -⟩ := entityBlocks_spec (R := R) delta.entries
  have hmerge : ∀ i s, s.WF R → (mergeBlocks R s ((entityBlocks (sortedIncoming R delta.entries)).filter
      fun b => e.routeShard R b.1 = i)).WF R ∧ ∀ k, ∃ block, (mergeBlocks R s
      ((entityBlocks (sortedIncoming R delta.entries)).filter fun b => e.routeShard R b.1 = i)).get R k =
        mergeEntries (s.get R k) block := by
    intro i s hs
    obtain ⟨hwf, hin, hout⟩ := mergeBlocks_spec hs (hnd.sublist ((List.filter_sublist
      (p := fun b => decide (e.routeShard R b.1 = i))).map Prod.fst))
    refine ⟨hwf, fun k => ?_⟩
    by_cases hk : k ∈ ((entityBlocks (sortedIncoming R delta.entries)).filter
        fun b => e.routeShard R b.1 = i).map Prod.fst
    · obtain ⟨b, hb, rfl⟩ := List.mem_map.mp hk
      exact ⟨b.2, hin b hb⟩
    · exact ⟨[], (hout k hk).trans (merge_nil_right _).symm⟩
  have hlen : (e.join R delta).shards.length = e.shards.length := by
    rw [hshards, List.length_mapIdx]
  constructor
  · refine ⟨hlen ▸ h.nonempty, fun s hs => ?_⟩
    obtain ⟨i, hi⟩ := List.getElem?_of_mem hs
    rw [hshards, List.getElem?_mapIdx, Option.map_eq_some_iff] at hi
    obtain ⟨t, ht, rfl⟩ := hi
    exact (hmerge i t (h.tries t (List.mem_of_getElem? ht))).1
  · intro k
    obtain ⟨s, hs, hwf, hget⟩ := h.exists_shard k
    have hroute : (e.join R delta).routeShard R k = e.routeShard R k := by
      rw [routeShard, routeShard, hlen, hseed]
    rw [hget, pointGet, hroute, hshards, List.getElem?_mapIdx, hs]
    exact (hmerge _ s hwf).2 k

/-- **Changes only add.** -/
theorem Mounted.change (h : e.Mounted R) (c : Change) :
    (e.change R c).Mounted R ∧ ∀ k, e.pointGet R k ⊆ (e.change R c).pointGet R k := by
  cases c with
  | insertLocal id entry =>
    obtain ⟨hm, hget⟩ := h.insertLocal id entry
    refine ⟨hm, fun k x hx => ?_⟩
    rw [Engine.change, hget]
    split
    · next hk => exact mem_insertFromEnd.mpr (.inr (hk ▸ hx))
    · exact hx
  | join delta =>
    refine ⟨(h.join delta).1, fun k => ?_⟩
    obtain ⟨block, hget⟩ := (h.join delta).2 k
    rw [Engine.change, hget]
    exact (sublist_merge _ _).subset

theorem Mounted.changes (h : e.Mounted R) (cs : List Change) :
    (cs.foldl (Engine.change R) e).Mounted R ∧
      ∀ k, e.pointGet R k ⊆ (cs.foldl (Engine.change R) e).pointGet R k := by
  induction cs generalizing e with
  | nil => exact ⟨h, fun k => List.Subset.refl _⟩
  | cons c cs ih =>
    obtain ⟨hm, hsub⟩ := h.change c
    obtain ⟨hm', hsub'⟩ := ih hm
    exact ⟨hm', fun k => List.Subset.trans (hsub k) (hsub' k)⟩

end Engine

end Sovereign.Sync

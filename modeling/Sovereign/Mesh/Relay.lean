import Sovereign.Mesh.Gossip

/-!
# The relay cache over a run

A batch of another node is retained once, under its sequence number, and found through the counters it
carries.  A counter that comes again with another batch leads to that one from then on, and a batch is
dropped with the last counter that leads to it (`rebind`).  The counts are exact (`Sound.refs`), so no
counter leads to a batch that was dropped (`retained_batches_found`).
-/

namespace Sovereign.Mesh

open Lib Sync

/-- The arguments of `RetainForeignBatch`. -/
structure RetainCall where
  originNodeID : NodeID
  originSeq : UInt64
  dotCounters : List UInt64
  frame : Bytes

namespace RelayCache

/-- The frame of a batch is there, and was retained under its sequence number. -/
def Retained (calls : List RetainCall) (c : RelayCache) (o : NodeID) (s : UInt64) : Prop :=
  ∃ ds f, c.batchForward (o, s) = some f ∧ ⟨o, s, ds, f⟩ ∈ calls

/-- The counts are right, and every counter leads to a frame. -/
structure Sound (calls : List RetainCall) (c : RelayCache) : Prop where
  refs : ∀ k, ∃ S : Finset UInt64, (∀ d, d ∈ S ↔ c.batchReverse (k.1, d) = some k.2) ∧ c.batchRefs k = S.card
  retained : ∀ {o d s}, c.batchReverse (o, d) = some s → c.Retained calls o s

variable {calls : List RetainCall} {c : RelayCache} {o : NodeID} {s d : UInt64}

theorem batchReverse_rebind (c : RelayCache) (o : NodeID) (s d : UInt64) :
    (c.rebind o s d).batchReverse = Function.update c.batchReverse (o, d) (some s) := by
  rw [rebind]
  dsimp only
  split
  · rfl
  next prev hprev =>
  split
  · next heq => rw [← heq, ← hprev, Function.update_eq_self]
  split <;> rfl

/-- A counter that is bound anew is counted for its batch, and not for the one it led to. -/
theorem Sound.refs_rebind (h : c.Sound calls) (hnew : c.batchReverse (o, d) ≠ some s) (k : NodeID × UInt64) :
    ∃ S : Finset UInt64, (∀ x, x ∈ S ↔ (c.rebind o s d).batchReverse (k.1, x) = some k.2) ∧
      (c.rebind o s d).batchRefs k = S.card := by
  obtain ⟨o', t⟩ := k
  obtain ⟨S, hS, hcard⟩ := h.refs (o', t)
  refine ⟨if o' = o then if t = s then insert d S else S.erase d else S, fun x => ?_, ?_⟩
  · rw [batchReverse_rebind, Function.update_apply]
    grind
  cases hprev : c.batchReverse (o, d) with
  | none =>
    simp only [rebind, hprev, Function.update_apply, Prod.mk.injEq]
    grind [Finset.erase_eq_of_notMem]
  | some prev =>
    obtain ⟨P, hP, hPcard⟩ := h.refs (o, prev)
    have hpos : 0 < P.card := Finset.card_pos.mpr ⟨d, (hP d).mpr hprev⟩
    have hne : prev ≠ s := fun heq => hnew (heq ▸ hprev)
    simp only [rebind, hprev, hne, if_false]
    split <;> simp only [Function.update_apply, Prod.mk.injEq] <;> grind [Finset.erase_eq_of_notMem]

theorem Sound.rebind (h : c.Sound calls) (hown : c.Retained calls o s) (d : UInt64) :
    (c.rebind o s d).Sound calls ∧ (c.rebind o s d).Retained calls o s := by
  by_cases hnew : c.batchReverse (o, d) = some s
  · have heq : c.rebind o s d = c := by simp [RelayCache.rebind, hnew]
    rw [heq]
    exact ⟨h, hown⟩
  -- a frame is dropped with the last counter that leads to it
  have hkept {o' t} (hold : c.Retained calls o' t)
      (hk : o' = o → c.batchReverse (o, d) = some t → 1 < c.batchRefs (o, t)) :
      (c.rebind o s d).Retained calls o' t := by
    obtain ⟨ds, f, hf, hcall⟩ := hold
    refine ⟨ds, f, ?_, hcall⟩
    cases hprev : c.batchReverse (o, d) with
    | none => simpa [RelayCache.rebind, hprev] using hf
    | some prev =>
      simp only [RelayCache.rebind, hprev]
      split
      · exact hf
      split
      · next hle =>
        refine (Function.update_of_ne (fun heq => ?_) _ _).trans hf
        cases heq
        have hlt := hk rfl hprev
        omega
      · exact hf
  have hown' := hkept hown fun _ ht => absurd ht hnew
  refine ⟨⟨h.refs_rebind hnew, fun {o' x t} hx => ?_⟩, hown'⟩
  rw [batchReverse_rebind, Function.update_apply] at hx
  split at hx
  · next heq =>
    cases heq
    cases hx
    exact hown'
  · next hne =>
    refine hkept (h.retained hx) ?_
    rintro rfl ht
    obtain ⟨S, hS, hcard⟩ := h.refs (o', t)
    have htwo : 1 < S.card := Finset.one_lt_card.mpr ⟨x, (hS x).mpr hx, d, (hS d).mpr ht, by simpa using hne⟩
    omega

variable {call : RetainCall}

/-- `retainBatch` with the arguments of a call. -/
def retainCall (c : RelayCache) (call : RetainCall) : RelayCache :=
  c.retainBatch call.originNodeID call.originSeq call.dotCounters call.frame

theorem Sound.retainCall (h : c.Sound calls) (hcall : call ∈ calls) : (c.retainCall call).Sound calls := by
  rw [RelayCache.retainCall, retainBatch]
  split
  · exact h
  set start : RelayCache :=
    { c with batchForward := Function.update c.batchForward (call.originNodeID, call.originSeq) (some call.frame) }
  have hown : start.Retained calls call.originNodeID call.originSeq :=
    ⟨call.dotCounters, call.frame, Function.update_self _ _ _, hcall⟩
  have hstart : start.Sound calls := by
    refine ⟨h.refs, fun {o d s} hs => ?_⟩
    by_cases hk : (o, s) = (call.originNodeID, call.originSeq)
    · cases hk
      exact hown
    · obtain ⟨ds, f, hf, hmem⟩ := h.retained hs
      exact ⟨ds, f, (Function.update_of_ne hk _ _).trans hf, hmem⟩
  exact (List.foldlRecOn (motive := fun c : RelayCache => c.Sound calls ∧ c.Retained calls call.originNodeID
    call.originSeq) call.dotCounters _ ⟨hstart, hown⟩ fun c hc d _ => hc.1.rebind hc.2 d).1

theorem isSome_retainCall (c : RelayCache) (call : RetainCall) (o : NodeID) (d : UInt64) :
    ((c.retainCall call).batchReverse (o, d)).isSome ↔
      (c.batchReverse (o, d)).isSome ∨ o = call.originNodeID ∧ d ∈ call.dotCounters := by
  have hloop (ds : List UInt64) (c : RelayCache) :
      ((ds.foldl (fun c dc => c.rebind call.originNodeID call.originSeq dc) c).batchReverse (o, d)).isSome ↔
        (c.batchReverse (o, d)).isSome ∨ o = call.originNodeID ∧ d ∈ ds := by
    induction ds generalizing c with
    | nil => simp
    | cons x ds ih =>
      rw [List.foldl_cons, ih, batchReverse_rebind, Function.update_apply]
      grind
  rw [RelayCache.retainCall, retainBatch]
  split
  · next hnil => simp [List.isEmpty_iff.mp hnil]
  · exact hloop _ _

end RelayCache

namespace Gossiper

def retainCall (g : Gossiper) (call : RetainCall) : Gossiper :=
  g.retainForeignBatch call.originNodeID call.originSeq call.dotCounters call.frame

/-- The state behind the calls of `run`, which are some of `calls`. -/
structure Relays (owner : NodeIdentity) (calls run : List RetainCall) (g : Gossiper) : Prop where
  owner_eq : g.owner = owner
  sound : g.relay.Sound calls
  isSome_iff : ∀ o d, (g.relay.batchReverse (o, d)).isSome ↔
    o ≠ owner.nodeID ∧ ∃ call ∈ run, o = call.originNodeID ∧ d ∈ call.dotCounters

variable {owner : NodeIdentity} {calls run : List RetainCall} {g : Gossiper} {call : RetainCall}

theorem Relays.step (h : g.Relays owner calls run) (hcall : call ∈ calls) :
    (g.retainCall call).Relays owner calls (run ++ [call]) := by
  rw [Gossiper.retainCall, retainForeignBatch, h.owner_eq]
  split
  · exact ⟨h.owner_eq, h.sound, fun o d => by grind [h.isSome_iff o d]⟩
  · refine ⟨rfl, h.sound.retainCall hcall, fun o d => ?_⟩
    have hsome := RelayCache.isSome_retainCall g.relay call o d
    rw [h.isSome_iff] at hsome
    exact hsome.trans (by grind)

theorem relays_foldl (owner : NodeIdentity) (e : Engine) (hsub : run ⊆ calls) :
    (run.foldl retainCall (.new owner e)).Relays owner calls run := by
  induction run using List.reverseRecOn with
  | nil => exact ⟨rfl, ⟨fun k => ⟨∅, by simp [Gossiper.new, RelayCache.new], rfl⟩, nofun⟩,
      by simp [Gossiper.new, RelayCache.new]⟩
  | append_singleton run call ih =>
    obtain ⟨hrun, hcall⟩ := List.append_subset.mp hsub
    rw [List.foldl_append]
    exact (ih hrun).step (hcall List.mem_cons_self)

end Gossiper

/-- **No batch is lost while a counter leads to it**: over every run of `RetainForeignBatch`, a counter is found
exactly if a batch of another node brought it, and then with a frame that was retained under its sequence number;
and a batch is counted exactly as often as a counter leads to it. -/
theorem retained_batches_found (owner : NodeIdentity) (e : Engine) (calls : List RetainCall) (o : NodeID)
    (d : UInt64) :
    let cache := (calls.foldl Gossiper.retainCall (.new owner e)).relay
    let found := cache.lookupBatch o d
    (found.isSome ↔ o ≠ owner.nodeID ∧ ∃ call ∈ calls, o = call.originNodeID ∧ d ∈ call.dotCounters) ∧
      (∀ f s, found = some (f, s) → ∃ ds, ⟨o, s, ds, f⟩ ∈ calls) ∧
      ∀ s, ∃ S : Finset UInt64, (∀ c, c ∈ S ↔ cache.batchReverse (o, c) = some s) ∧
        cache.batchRefs (o, s) = S.card := by
  intro cache found
  have h := Gossiper.relays_foldl owner e (List.Subset.refl calls)
  rw [← h.isSome_iff o d, ← and_assoc]
  refine ⟨?_, fun s => h.sound.refs (o, s)⟩
  cases hs : cache.batchReverse (o, d) with
  | none => simp [cache, found, RelayCache.lookupBatch, hs]
  | some s =>
    obtain ⟨ds, f, hf, hcall⟩ := h.sound.retained hs
    have hfound : found = some (f, s) := by simp [cache, found, RelayCache.lookupBatch, hs, hf]
    rw [hfound]
    refine ⟨by simp, ?_⟩
    rintro _ _ ⟨⟩
    exact ⟨ds, hcall⟩

end Sovereign.Mesh

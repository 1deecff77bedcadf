import Sovereign.Sync.Convergence
import Sovereign.Sync.DigestPeel

/-!
# Anti-entropy is complete

`GenerateDelta` against the digest of another engine: whatever the peel says, the delta is part of
what the engine holds and covers what the other one lacks (`generateDelta_spec`).  As `Join` is
union, one delta in each direction makes both engines hold the union, and two
engines with the same contents have nothing left to send (`generateDelta_same`).
-/

namespace Sovereign.Sync

open Lib

namespace Engine

variable {R : Runtime}

/-! ### The walk as a list of items -/

theorem mem_items {e : Engine} (h : e.WF R) {x : IncomingEntry} :
    x ∈ e.items ↔ x ∈ e.contents R := by
  rw [items, List.mem_flatMap, mem_contents]
  constructor
  · rintro ⟨p, hp, hx⟩
    obtain ⟨entry, hentry, rfl⟩ := List.mem_map.mp hx
    rwa [h.pointGet_of_mem hp]
  · intro hx
    exact ⟨(x.entityID, e.pointGet R x.entityID),
      (ShardsWF.mem_walk_iff h).mpr ⟨rfl, List.ne_nil_of_mem hx⟩, List.mem_map.mpr ⟨x.entry, hx, rfl⟩⟩

theorem nodup_items {e : Engine} (h : e.WF R) : e.items.Nodup := by
  refine List.nodup_flatMap.mpr ⟨fun p hp => ?_, ?_⟩
  · have hasc := h.ascending_pointGet p.1
    rw [h.pointGet_of_mem hp] at hasc
    exact hasc.nodup.map fun a b hab => congrArg IncomingEntry.entry hab
  · have hnd : e.allPairs.Pairwise fun p q => p.1 ≠ q.1 := List.pairwise_map.mp (ShardsWF.nodup_walk h)
    refine hnd.imp fun {p q} hne x hp hq => ?_
    obtain ⟨a, -, rfl⟩ := List.mem_map.mp hp
    obtain ⟨b, -, hb⟩ := List.mem_map.mp hq
    exact hne (congrArg IncomingEntry.entityID hb).symm

def sketchKeys (e : Engine) : List UInt64 := e.items.map sketchKey

theorem generateDigestWithSeed_eq (e : Engine) (seed : Seed) :
    e.generateDigestWithSeed R seed = IBLT.digestOf R seed e.sketchKeys := rfl

theorem mem_sketchKeys {e : Engine} (h : e.WF R) {key : UInt64} :
    key ∈ e.sketchKeys ↔ ∃ x ∈ e.contents R, sketchKey x = key := by
  simp [sketchKeys, mem_items h]

theorem nodup_sketchKeys {e : Engine} (h : e.WF R) (hinj : Set.InjOn sketchKey (e.contents R)) :
    e.sketchKeys.Nodup :=
  (nodup_items h).map_on fun _ hx _ hy => hinj ((mem_items h).mp hx) ((mem_items h).mp hy)

/-! ### One delta -/

section
variable {e e' : Engine}

theorem generateDelta_of_config (e : Engine) (remote : IBLT)
    (hconfig : remote.buckets.length ≠ 1024 ∨ remote.k ≠ 4) (fuel : ℕ) :
    e.generateDelta R fuel remote = some ⟨e.localNodeID, e.items⟩ := by
  have hdig := IBLT.sameShape_digestOf (R := R) remote.seed e.sketchKeys
  have hsub : (e.generateDigestWithSeed R remote.seed).subtract remote = none := by
    rw [generateDigestWithSeed_eq, IBLT.subtract, if_pos]
    rw [hdig.length_blank, hdig.k]
    exact hconfig.imp Ne.symm Ne.symm
  rw [generateDelta, hsub]

theorem generateDelta_of_incomplete (e : Engine) {remote diff : IBLT} {fuel : ℕ}
    {sendKeys remoteHas : List UInt64}
    (hdiff : (e.generateDigestWithSeed R remote.seed).subtract remote = some diff)
    (hpeel : diff.peel R fuel = some (sendKeys, remoteHas, true)) :
    e.generateDelta R fuel remote = some ⟨e.localNodeID, e.items⟩ := by
  rw [generateDelta, hdiff]
  simp [hpeel]

/-- **`GenerateDelta`** against the digest of an engine: it returns, with part of what the engine
holds, including all the other lacks. -/
theorem generateDelta_spec (h : e.WF R) (h' : e'.WF R)
    (hinj : Set.InjOn sketchKey (e.contents R ∪ e'.contents R)) {seed : Seed}
    (hsound : IBLT.ChecksumSound R seed e.sketchKeys e'.sketchKeys) :
    ∃ fuel₀ delta,
      (∀ fuel, fuel₀ ≤ fuel →
        e.generateDelta R fuel (e'.generateDigestWithSeed R seed) = some delta) ∧
      (∀ x ∈ delta.entries, x ∈ e.contents R) ∧
      ∀ x ∈ e.contents R, x ∉ e'.contents R → x ∈ delta.entries := by
  obtain ⟨diff, fuel₀, sendKeys, remoteHas, incomplete, hdiff, hpeel, hkeys⟩ := IBLT.peel_spec
    (nodup_sketchKeys h (hinj.mono Set.subset_union_left))
    (nodup_sketchKeys h' (hinj.mono Set.subset_union_right)) hsound
  refine ⟨fuel₀, ⟨e.localNodeID, e.items.filter fun x => incomplete ∨ sketchKey x ∈ sendKeys⟩,
    fun fuel hfuel => ?_, fun x hx => (mem_items h).mp (List.mem_filter.mp hx).1,
    fun x hx hx' => ?_⟩
  · have hseed : (e'.generateDigestWithSeed R seed).seed = seed :=
      (IBLT.sameShape_digestOf (R := R) seed e'.sketchKeys).seed
    rw [generateDelta, hseed, generateDigestWithSeed_eq, generateDigestWithSeed_eq, hdiff]
    simp only [hpeel fuel hfuel]
  · refine List.mem_filter.mpr ⟨(mem_items h).mpr hx, decide_eq_true ?_⟩
    cases hinc : incomplete with
    | true => exact .inl rfl
    | false =>
      refine .inr ((hkeys hinc _).mpr ⟨(mem_sketchKeys h).mpr ⟨x, hx, rfl⟩, fun hkey => ?_⟩)
      obtain ⟨y, hy, hxy⟩ := (mem_sketchKeys h').mp hkey
      exact hx' (hinj (.inr hy) (.inl hx) hxy ▸ hy)

theorem generateDelta_same (h : e.WF R) (h' : e'.WF R) (hc : e.contents R = e'.contents R)
    (seed : Seed) (fuel : ℕ) :
    e.generateDelta R fuel (e'.generateDigestWithSeed R seed) = some ⟨e.localNodeID, []⟩ := by
  have hperm : e.sketchKeys.Perm e'.sketchKeys := by
    refine List.Perm.map _ ((List.perm_ext_iff_of_nodup (nodup_items h) (nodup_items h')).mpr ?_)
    exact fun x => by rw [mem_items h, mem_items h', hc]
  obtain ⟨diff, hdiff, hpeel⟩ := IBLT.peel_same (R := R) seed hperm
  have hseed : (e'.generateDigestWithSeed R seed).seed = seed :=
    (IBLT.sameShape_digestOf (R := R) seed e'.sketchKeys).seed
  rw [generateDelta, hseed, generateDigestWithSeed_eq, generateDigestWithSeed_eq, hdiff]
  simp [hpeel fuel]

/-- Joining a delta that is part of `S` and covers what is lacking of `S` gives `S` on top. -/
theorem contents_join_covering (h : e.WF R) {S : Set IncomingEntry}
    (hkey : Set.InjOn IncomingEntry.key (e.contents R ∪ S)) {delta : CRDTDelta}
    (hpart : ∀ x ∈ delta.entries, x ∈ S) (hcover : ∀ x ∈ S, x ∉ e.contents R → x ∈ delta.entries) :
    (e.join R delta).contents R = e.contents R ∪ S := by
  have hsub : delta.carried ⊆ S := hpart
  rw [contents_join h delta (hkey.mono (Set.union_subset_union_right _ hsub))]
  refine subset_antisymm (Set.union_subset_union_right _ hsub) ?_
  rintro x (hx | hx)
  · exact .inl hx
  · by_cases hxe : x ∈ e.contents R
    · exact .inl hxe
    · exact .inr (hcover x hx hxe)

/-- Soundness of the checksum carries over to an engine that holds more of the same. -/
theorem checksumSound_between {near far peer : Engine} (hnear : near.WF R) (hfar : far.WF R)
    (hpeer : peer.WF R) (hle : far.contents R ⊆ peer.contents R)
    (hge : peer.contents R ⊆ near.contents R ∪ far.contents R) {seed : Seed}
    (hsound : IBLT.ChecksumSound R seed far.sketchKeys near.sketchKeys) :
    IBLT.ChecksumSound R seed peer.sketchKeys near.sketchKeys := by
  refine hsound.mono (fun key ⟨hkey, hnot⟩ => ⟨?_, hnot⟩) fun key ⟨hkey, hnot⟩ => ⟨hkey, fun hf => ?_⟩
  · obtain ⟨x, hx, rfl⟩ := (mem_sketchKeys hpeer).mp hkey
    rcases hge hx with hx | hx
    · exact absurd ((mem_sketchKeys hnear).mpr ⟨x, hx, rfl⟩) hnot
    · exact (mem_sketchKeys hfar).mpr ⟨x, hx, rfl⟩
  · obtain ⟨x, hx, rfl⟩ := (mem_sketchKeys hfar).mp hf
    exact hnot ((mem_sketchKeys hpeer).mpr ⟨x, hle hx, rfl⟩)

end

end Engine

/-! ### A round -/

/-- **Anti-entropy completeness.**  Two well-formed engines whose entries have distinct digest keys,
with a sound bucket checksum for the seeds of the two digests, and in which `(entity, dot)`
determines the entry.  The second delta may be generated before or after the first one is joined:
`peer` is any engine between the remote one and the union. -/
theorem anti_entropy_complete (R : Runtime) (near far : Engine) (hnear : near.WF R) (hfar : far.WF R)
    (hinj : Set.InjOn Engine.sketchKey (near.contents R ∪ far.contents R))
    (hkey : Set.InjOn IncomingEntry.key (near.contents R ∪ far.contents R))
    (seed seed' : Seed) (hsound : IBLT.ChecksumSound R seed near.sketchKeys far.sketchKeys)
    (hsound' : IBLT.ChecksumSound R seed' far.sketchKeys near.sketchKeys) :
    -- everything, when the configurations differ or the peel fails
    (∀ remote : IBLT, remote.buckets.length ≠ 1024 ∨ remote.k ≠ 4 →
      ∀ fuel, near.generateDelta R fuel remote = some ⟨near.localNodeID, near.items⟩) ∧
    (∀ remote diff fuel sendKeys remoteHas,
      (near.generateDigestWithSeed R remote.seed).subtract remote = some diff →
      diff.peel R fuel = some (sendKeys, remoteHas, true) →
      near.generateDelta R fuel remote = some ⟨near.localNodeID, near.items⟩) ∧
    (∀ x, x ∈ near.items ↔ x ∈ near.contents R) ∧
    ∃ fuel₀ toFar,
      (∀ fuel, fuel₀ ≤ fuel →
        near.generateDelta R fuel (far.generateDigestWithSeed R seed) = some toFar) ∧
      (∀ x ∈ near.contents R, x ∉ far.contents R → x ∈ toFar.entries) ∧
      (∀ x ∈ toFar.entries, x ∈ near.contents R) ∧
      (far.join R toFar).contents R = near.contents R ∪ far.contents R ∧
      ∀ peer : Engine, peer = far ∨ peer = far.join R toFar →
        ∃ fuel₁ toNear,
          (∀ fuel, fuel₁ ≤ fuel →
            peer.generateDelta R fuel (near.generateDigestWithSeed R seed') = some toNear) ∧
          (near.join R toNear).contents R = near.contents R ∪ far.contents R ∧
          ∀ seed'' fuel,
            (near.join R toNear).generateDelta R fuel
                ((far.join R toFar).generateDigestWithSeed R seed'')
              = some ⟨(near.join R toNear).localNodeID, []⟩ ∧
            (far.join R toFar).generateDelta R fuel
                ((near.join R toNear).generateDigestWithSeed R seed'')
              = some ⟨(far.join R toFar).localNodeID, []⟩ := by
  refine ⟨near.generateDelta_of_config, fun _ _ _ _ _ => near.generateDelta_of_incomplete,
    fun x => Engine.mem_items hnear, ?_⟩
  obtain ⟨fuel₀, toFar, hgen, hpart, hcover⟩ :=
    Engine.generateDelta_spec hnear hfar hinj hsound
  have hwf := (Engine.join_spec hfar toFar).1
  have hunion : (far.join R toFar).contents R = near.contents R ∪ far.contents R := by
    rw [Engine.contents_join_covering hfar (Set.union_comm _ _ ▸ hkey) hpart hcover, Set.union_comm]
  refine ⟨fuel₀, toFar, hgen, hcover, hpart, hunion, fun peer hpeer => ?_⟩
  -- both possible peers are well formed and lie between `far` and the union
  have hpeerWF : peer.WF R := by
    rcases hpeer with rfl | rfl
    · exact hfar
    · exact hwf
  have hbetween : near.contents R ∪ peer.contents R = near.contents R ∪ far.contents R ∧
      far.contents R ⊆ peer.contents R := by
    rcases hpeer with rfl | rfl
    · exact ⟨rfl, subset_rfl⟩
    · rw [hunion, ← Set.union_assoc, Set.union_self]
      exact ⟨rfl, Set.subset_union_right⟩
  obtain ⟨heq, hle⟩ := hbetween
  have hge : peer.contents R ⊆ near.contents R ∪ far.contents R := heq ▸ Set.subset_union_right
  rw [← heq] at hkey hinj
  obtain ⟨fuel₁, toNear, hgen', hpart', hcover'⟩ := Engine.generateDelta_spec hpeerWF hnear
    (Set.union_comm _ _ ▸ hinj)
    (Engine.checksumSound_between hnear hfar hpeerWF hle hge hsound')
  have hunion' : (near.join R toNear).contents R = near.contents R ∪ far.contents R := by
    rw [Engine.contents_join_covering hnear hkey hpart' hcover', heq]
  have hwf' := (Engine.join_spec hnear toNear).1
  exact ⟨fuel₁, toNear, hgen', hunion', fun seed'' fuel =>
    ⟨Engine.generateDelta_same hwf' hwf (hunion'.trans hunion.symm) seed'' fuel,
      Engine.generateDelta_same hwf hwf' (hunion.trans hunion'.symm) seed'' fuel⟩⟩

def holdingOne (b : Bool) (x : IncomingEntry) : Engine :=
  (sampleReplica b).boot.join .sample ⟨sampleNode 1, [x]⟩

theorem holdingOne_spec (b : Bool) (x : IncomingEntry) :
    (holdingOne b x).WF .sample ∧ (holdingOne b x).contents .sample = {x} ∧
      (holdingOne b x).sketchKeys = [Engine.sketchKey x] := by
  have hwf : (holdingOne b x).WF .sample := (Engine.join_spec (sampleReplica b).wf_boot _).1
  have hcarried : (⟨sampleNode 1, [x]⟩ : CRDTDelta).carried = {x} := by
    ext y
    simp [CRDTDelta.carried]
  have hcontents : (holdingOne b x).contents .sample = {x} := by
    rw [holdingOne, Replica.contents_join_boot _ (hcarried ▸ Set.injOn_singleton _ _), hcarried]
  refine ⟨hwf, hcontents, ?_⟩
  have hitems : (holdingOne b x).items.Perm [x] :=
    (List.perm_ext_iff_of_nodup (Engine.nodup_items hwf) (by simp)).mpr fun y => by
      rw [Engine.mem_items hwf, hcontents]
      simp
  rw [Engine.sketchKeys, List.perm_singleton.mp hitems]
  rfl

theorem anti_entropy_complete_on_two_items :
    let near := holdingOne true ⟨[7], sampleEntry 2 5 0⟩
    let far := holdingOne false ⟨[7], sampleEntry 1 9 1⟩
    ∃ fuel toFar, near.generateDelta .sample fuel (far.generateDigestWithSeed .sample 3) = some toFar ∧
      (far.join .sample toFar).contents .sample = near.contents .sample ∪ far.contents .sample := by
  intro near far
  obtain ⟨hwf, hc, hk⟩ := holdingOne_spec true ⟨[7], sampleEntry 2 5 0⟩
  obtain ⟨hwf', hc', hk'⟩ := holdingOne_spec false ⟨[7], sampleEntry 1 9 1⟩
  obtain ⟨-, -, -, fuel, toFar, hgen, -, -, hunion, -⟩ :=
    anti_entropy_complete .sample near far hwf hwf'
      (by rw [hc, hc', Set.singleton_union, Set.injOn_pair]; decide +kernel)
      (by rw [hc, hc', Set.singleton_union, Set.injOn_pair]; decide +kernel) 3 4
      (by rw [hk, hk']; exact IBLT.checksumSound_singletons _ _ _)
      (by rw [hk, hk']; exact IBLT.checksumSound_singletons _ _ _)
  exact ⟨fuel, toFar, hgen fuel (le_refl _), hunion⟩

/-- Two engines with different entries under one `(entity, dot)` meet every other condition, and a
delta never makes the one hold what the other has: `Join` keeps its own entry. -/
theorem conflicting_dots_never_converge :
    let near := holdingOne true ⟨[7], sampleEntry 2 5 0⟩
    let far := holdingOne false ⟨[7], sampleEntry 2 5 1⟩
    near.WF .sample ∧ far.WF .sample ∧
      Set.InjOn Engine.sketchKey (near.contents .sample ∪ far.contents .sample) ∧
      (∀ seed, IBLT.ChecksumSound .sample seed near.sketchKeys far.sketchKeys ∧
        IBLT.ChecksumSound .sample seed far.sketchKeys near.sketchKeys) ∧
      ∀ seed, ∃ fuel toFar,
        near.generateDelta .sample fuel (far.generateDigestWithSeed .sample seed) = some toFar ∧
        (far.join .sample toFar).contents .sample ≠ near.contents .sample ∪ far.contents .sample := by
  intro near far
  obtain ⟨hwf, hc, hk⟩ := holdingOne_spec true ⟨[7], sampleEntry 2 5 0⟩
  obtain ⟨hwf', hc', hk'⟩ := holdingOne_spec false ⟨[7], sampleEntry 2 5 1⟩
  have hinj : Set.InjOn Engine.sketchKey (near.contents .sample ∪ far.contents .sample) := by
    rw [hc, hc', Set.singleton_union, Set.injOn_pair]
    decide +kernel
  have hsound : ∀ seed, IBLT.ChecksumSound .sample seed near.sketchKeys far.sketchKeys ∧
      IBLT.ChecksumSound .sample seed far.sketchKeys near.sketchKeys := fun seed => by
    rw [hk, hk']
    exact ⟨IBLT.checksumSound_singletons _ _ _, IBLT.checksumSound_singletons _ _ _⟩
  refine ⟨hwf, hwf', hinj, hsound, fun seed => ?_⟩
  obtain ⟨fuel, toFar, hgen, -⟩ := Engine.generateDelta_spec hwf hwf' hinj (hsound seed).1
  refine ⟨fuel, toFar, hgen fuel (le_refl _), fun hunion => ?_⟩
  -- both entries would be in one strictly ascending list, with the same dot
  have hmine : (⟨[7], sampleEntry 2 5 1⟩ : IncomingEntry) ∈ (far.join .sample toFar).contents .sample :=
    Engine.contents_subset_join hwf' toFar (hc' ▸ rfl)
  have htheirs : (⟨[7], sampleEntry 2 5 0⟩ : IncomingEntry)
      ∈ (far.join .sample toFar).contents .sample := by
    rw [hunion, hc]
    exact .inl rfl
  have hasc := (Engine.join_spec hwf' toFar).1.ascending_pointGet [7]
  have heq := hasc.eq_of_key_eq hmine htheirs rfl
  exact absurd heq (by decide)

end Sovereign.Sync

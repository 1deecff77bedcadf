import Sovereign.Sync.PeelExact

/-!
# Peeling the difference of two digests

A digest is the sketch of its keys in the configuration of `GenerateDigestWithSeed`, so the table that
`GenerateDelta` peels is the residue of the keys only one side has (`digest_diff`).  With a checksum that
accepts no impure bucket (`ChecksumSound`) the loop ends and, unless it reports failure, it has listed
exactly the missing keys (`peel_spec`).
-/

namespace Sovereign.Sync

open Lib

namespace IBLT

variable {R : Runtime} {seed : Seed} {localKeys remoteKeys A B : List UInt64} {diff : IBLT}

def digestOf (R : Runtime) (seed : Seed) (keys : List UInt64) : IBLT :=
  keys.foldl (IBLT.insert R) (digestTable seed)

theorem sameShape_digestOf (seed : Seed) (keys : List UInt64) :
    SameShape (digestOf R seed keys) (blank 1024 4 seed) :=
  (sketchOf_buckets 1024 4 seed keys).1

theorem distinctTargets_digest (seed : Seed) (keys : List UInt64) : DistinctTargets R 1024 4 seed keys :=
  fun key _ => (getHashes_digestTable seed key).1

theorem four_hashes_pos : 0 < 4 := by decide

/-- The digest table as a linear sketch of 64-bit keys. -/
abbrev digestSketch (R : Runtime) (seed : Seed) : Sketch UInt64 Bucket :=
  sketchAt R 1024 four_hashes_pos seed

theorem digest_isPure_iff (h : SameShape diff (blank 1024 4 seed)) (idx : ℕ) :
    diff.isPure R idx ↔ (digestSketch R seed).accepts (diff.bucket idx) :=
  isPure_iff_accepts h idx

theorem digest_diff (hdiff : (digestOf R seed A).subtract (digestOf R seed B) = some diff) :
    SameShape diff (blank 1024 4 seed) ∧ ∀ i, diff.bucket i = (digestSketch R seed).residue A B i := by
  obtain ⟨hshape, hbucket⟩ := diff_residue (distinctTargets_digest seed (A ++ B)) hdiff
  refine ⟨hshape, fun i => ?_⟩
  by_cases hi : i < 1024
  · exact hbucket i hi
  · -- no key has a bucket past the end
    have hout : ∀ key, i ∉ (digestSketch R seed).targets key := fun key hkey =>
      hi ((getHashes_digestTable seed key).2 i hkey)
    have hge : diff.buckets.length ≤ i := by
      rw [hshape.length_blank]
      exact Nat.not_lt.mp hi
    rw [bucket_of_ge hge, Sketch.residue,
      Sketch.load_eq_zero fun x _ => hout x, Sketch.load_eq_zero fun x _ => hout x, sub_zero]

theorem subtract_digestOf (seed : Seed) (A B : List UInt64) :
    ∃ diff, (digestOf R seed A).subtract (digestOf R seed B) = some diff := by
  obtain ⟨diff, hdiff, -⟩ := subtract_sketchOf (R := R) 1024 4 seed A B
  exact ⟨diff, hdiff⟩

/-- The checksum accepts no impure bucket: whenever a bucket of the difference of two digests passes
`isPure`, exactly one key is in it.  The digests are of any keys of the two sides that
are not common to both. -/
def ChecksumSound (R : Runtime) (seed : Seed) (localKeys remoteKeys : List UInt64) : Prop :=
  ∀ A B : List UInt64, A.Nodup → B.Nodup →
    (∀ x ∈ A, x ∈ localKeys ∧ x ∉ remoteKeys) → (∀ x ∈ B, x ∈ remoteKeys ∧ x ∉ localKeys) →
    ∀ diff, (digestOf R seed A).subtract (digestOf R seed B) = some diff →
    ∀ idx, diff.isPure R idx → ∃! key, key ∈ A ++ B ∧ idx ∈ diff.getHashes R key

theorem ChecksumSound.mono {seed : Seed} {localKeys remoteKeys localKeys' remoteKeys' : List UInt64}
    (h : ChecksumSound R seed localKeys remoteKeys)
    (hl : ∀ x, x ∈ localKeys' ∧ x ∉ remoteKeys' → x ∈ localKeys ∧ x ∉ remoteKeys)
    (hr : ∀ x, x ∈ remoteKeys' ∧ x ∉ localKeys' → x ∈ remoteKeys ∧ x ∉ localKeys) :
    ChecksumSound R seed localKeys' remoteKeys' :=
  fun A B hA hB hAl hBr => h A B hA hB (fun x hx => hl x (hAl x hx)) fun x hx => hr x (hBr x hx)

/-- With one key on each side every accepted bucket is pure. -/
theorem checksumSound_singletons (seed : Seed) (a b : UInt64) : ChecksumSound R seed [a] [b] := by
  have hsub : ∀ (x : UInt64) (C : List UInt64), C.Nodup → (∀ y ∈ C, y = x) → C = [] ∨ C = [x] := by
    intro x C hC hx
    rcases C with _ | ⟨y, _ | ⟨z, C⟩⟩
    · exact .inl rfl
    · exact .inr (by rw [hx y (by simp)])
    · rw [hx y (by simp), hx z (by simp)] at hC
      simp at hC
  intro A B hA hB hAl hBr diff hdiff idx hpure
  obtain ⟨hshape, hbucket⟩ := digest_diff hdiff
  have hcount := ((digest_isPure_iff hshape idx).mp hpure).1
  rw [hbucket, Sketch.residue] at hcount
  simp only [hshape.getHashes]
  change ∃! key, key ∈ A ++ B ∧ idx ∈ (digestSketch R seed).targets key
  have hc : ∀ x, ((digestSketch R seed).share x idx).count
      = if idx ∈ (digestSketch R seed).targets x then 1 else 0 := by
    intro x
    rw [Sketch.share]
    split <;> rfl
  rcases hsub a A hA (fun x hx => by simpa using (hAl x hx).1) with rfl | rfl <;>
    rcases hsub b B hB (fun x hx => by simpa using (hBr x hx).1) with rfl | rfl
  · rw [sub_self] at hcount
    exact absurd hcount (by decide)
  · simp only [Sketch.load_nil, Sketch.load_cons, add_zero, zero_sub, Bucket.neg_def, hc] at hcount
    split at hcount
    · next hi => exact ⟨b, by simpa using hi, by simp⟩
    · exact absurd hcount (by decide)
  · simp only [Sketch.load_nil, Sketch.load_cons, add_zero, sub_zero, hc] at hcount
    split at hcount
    · next hi => exact ⟨a, by simpa using hi, by simp⟩
    · exact absurd hcount (by decide)
  · simp only [Sketch.load_nil, Sketch.load_cons, add_zero, Bucket.sub_def, hc] at hcount
    -- equal loads cancel, so exactly one of the two keys is in the bucket
    split at hcount <;> split at hcount
    · exact absurd hcount (by decide)
    · next hi hj => exact ⟨a, by simpa using hi, by simp; grind⟩
    · next hi hj => exact ⟨b, by simpa using hj, by simp; grind⟩
    · exact absurd hcount (by decide)

theorem ChecksumSound.noFalsePure (h : ChecksumSound R seed localKeys remoteKeys) :
    (digestSketch R seed).NoFalsePure (localKeys.filter (· ∉ remoteKeys)) (remoteKeys.filter (· ∉ localKeys)) :=
  NoFalsePureBucket.noFalsePure h (distinctTargets_digest seed _) (by decide) (by decide)

/-- **Peeling the difference of two digests** ends; if it does not report failure, it has listed
exactly the keys that the remote side lacks. -/
theorem peel_spec (hl : localKeys.Nodup) (hr : remoteKeys.Nodup)
    (hsound : ChecksumSound R seed localKeys remoteKeys) :
    ∃ diff fuel₀ sendKeys remoteHas incomplete,
      (digestOf R seed localKeys).subtract (digestOf R seed remoteKeys) = some diff ∧
        (∀ fuel, fuel₀ ≤ fuel → diff.peel R fuel = some (sendKeys, remoteHas, incomplete)) ∧
        (incomplete = false → ∀ x, x ∈ sendKeys ↔ x ∈ localKeys ∧ x ∉ remoteKeys) := by
  obtain ⟨diff, hdiff⟩ := subtract_digestOf (R := R) seed localKeys remoteKeys
  have hpure := hsound.noFalsePure
  have hdistinct := distinctTargets_digest (R := R) seed
  have hstart : Residual R four_hashes_pos 1024 seed _ _ (peelStart R diff) _ _ := residual_start hl hr (hdistinct _) hdiff
  obtain ⟨fuel₀, hends⟩ := hstart.ends hpure (hdistinct _)
  obtain ⟨A, B, hend⟩ := hstart.iterate hpure (hdistinct _) fuel₀
  set last := (peelStep R)^[fuel₀] (peelStart R diff)
  refine ⟨diff, fuel₀, last.localHas, last.remoteHas, last.table.buckets.any (· ≠ 0), hdiff, fun fuel hfuel => ?_,
    fun hcomplete x => ?_⟩
  · obtain ⟨more, rfl⟩ := Nat.exists_eq_add_of_le' hfuel
    refine peel_eq_some_iff.mpr ?_
    rw [Function.iterate_add_apply, iterate_peelStep_of_nil hends]
    exact ⟨hends, rfl, rfl, rfl⟩
  · rw [(hend.complete hpure (by decide) (by decide) hcomplete).1.mem_iff, mem_filter_notMem]

/-- Digests of the same keys subtract to nothing, and nothing is peeled. -/
theorem peel_same (seed : Seed) (hperm : localKeys.Perm remoteKeys) :
    ∃ diff, (digestOf R seed localKeys).subtract (digestOf R seed remoteKeys) = some diff ∧
      ∀ fuel, diff.peel R fuel = some ([], [], false) := by
  obtain ⟨diff, hdiff⟩ := subtract_digestOf (R := R) seed localKeys remoteKeys
  obtain ⟨hshape, hbucket⟩ := digest_diff hdiff
  have hzero : ∀ i, diff.bucket i = 0 := fun i => by
    rw [hbucket, Sketch.residue, Sketch.load_perm hperm, sub_self]
  have hqueue : (peelStart R diff).queue = [] := by
    refine List.filter_eq_nil_iff.mpr fun i _ hpure => ?_
    have hcount := ((digest_isPure_iff hshape i).mp hpure).1
    rw [hzero] at hcount
    exact absurd hcount (by decide)
  have hany : diff.buckets.any (· ≠ 0) = false := by
    rw [List.any_eq_false]
    intro b hmem
    obtain ⟨i, hi, rfl⟩ := List.getElem_of_mem hmem
    have := hzero i
    rw [bucket, List.getD_eq_getElem?_getD, List.getElem?_eq_getElem hi] at this
    simpa using this
  refine ⟨diff, hdiff, fun fuel => peel_eq_some_iff.mpr ?_⟩
  rw [iterate_peelStep_of_nil hqueue]
  exact ⟨hqueue, rfl, rfl, hany⟩

end IBLT

end Sovereign.Sync

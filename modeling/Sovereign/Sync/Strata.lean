import Sovereign.Sync.PeelArena

/-!
# The strata estimator

`StrataEstimator` of `iblt.go`: 32 tables of 80 buckets, a key in the table of the number of its trailing
zeros, and `Estimate`, which peels the differences of the tables from the sparsest on, adds up what they
list, and at the first one that does not peel scales the sum.

* `trailingZeros64_eq` — the table look-up of the source counts the trailing zeros.
* `stratum_estimatorOf` — the stratum of a set of keys is the sketch of its keys there.
* `stratum_contributes` — a stratum lists at most its differing keys, and all of them if it peels.

Sums and shifts are those of `int`; a stratum lists at most 80 keys, so nothing overflows.
-/

namespace Sovereign.Sync

open Lib

/-! ### The estimator -/

def strataCount : ℕ := 32

def strataIBLTBuckets : ℕ := 80

def strataK : ℕ := 3

/-- The look-up table of `trailingZeros64`. -/
def deBruijnTable : List ℕ :=
  [0, 1, 56, 2, 57, 49, 28, 3, 61, 58, 42, 50, 38, 29, 17, 4,
    62, 47, 59, 36, 45, 43, 51, 22, 53, 39, 33, 30, 24, 18, 12, 5,
    63, 55, 48, 27, 60, 41, 37, 16, 46, 35, 44, 21, 52, 32, 23, 11,
    54, 26, 40, 15, 34, 20, 31, 10, 25, 14, 19, 9, 13, 8, 7, 6]

def trailingZeros64 (x : UInt64) : ℕ :=
  if x = 0 then 64 else deBruijnTable.getD (((x &&& -x) * 0x03f79d71b4ca8b09) >>> 58).toNat 0

def stratumOf (key : UInt64) : Fin strataCount :=
  let s := trailingZeros64 key
  if h : strataCount ≤ s then ⟨strataCount - 1, by decide⟩ else ⟨s, Nat.lt_of_not_le h⟩

@[ext] structure StrataEstimator where
  strata : List IBLT
  seed : Seed
  length_strata : strata.length = strataCount

namespace StrataEstimator

def stratum (se : StrataEstimator) (s : Fin strataCount) : IBLT :=
  se.strata.get (s.cast se.length_strata.symm)

def new (seed : Seed) : StrataEstimator :=
  ⟨List.replicate strataCount (IBLT.blank strataIBLTBuckets strataK seed), seed, List.length_replicate⟩

variable (R : Runtime)

def insert (se : StrataEstimator) (key : UInt64) : StrataEstimator :=
  ⟨se.strata.modify (stratumOf key) fun t => t.insert R key, se.seed,
    (List.length_modify _ _ _).trans se.length_strata⟩

/-- The loop of `Estimate`: `s` strata are left and `count` keys have been listed. -/
def estimateFrom (fuel : ℕ) (se remote : StrataEstimator) : (s : ℕ) → s ≤ strataCount → Int64 → Option Int64
  | 0, _, count => some count
  | s + 1, hs, count =>
    match (se.stratum ⟨s, hs⟩).subtract (remote.stratum ⟨s, hs⟩) with
    | none => some (count <<< Int64.ofNat (s + 1))
    | some diff =>
      match diff.peel R fuel with
      | none => none
      | some (localHas, remoteHas, incomplete) =>
        let count := count + Int64.ofNat localHas.length + Int64.ofNat remoteHas.length
        if incomplete then some (count <<< Int64.ofNat (s + 1))
        else estimateFrom fuel se remote s (Nat.le_of_succ_le hs) count

/-- `Estimate`; `none` is a peel that has not finished. -/
def estimate (fuel : ℕ) (se remote : StrataEstimator) : Option Int64 :=
  estimateFrom R fuel se remote strataCount (Nat.le_refl _) 0

/-- The estimator of a set of keys, inserted in any order. -/
def estimatorOf (seed : Seed) (keys : List UInt64) : StrataEstimator := keys.foldl (insert R) (new seed)

def keysAt (keys : List UInt64) (s : Fin strataCount) : List UInt64 := keys.filter fun key => stratumOf key = s

/-- The keys that one side only has. -/
def differing (A B : List UInt64) : List UInt64 := A.filter (· ∉ B) ++ B.filter (· ∉ A)

/-- The stratum of the difference peels. -/
def Peels (se remote : StrataEstimator) (s : Fin strataCount) : Prop :=
  ∃ diff fuel localHas remoteHas, (se.stratum s).subtract (remote.stratum s) = some diff ∧
    diff.peel R fuel = some (localHas, remoteHas, false)

variable {R}

/-! ### Trailing zeros -/

/-- A word and its negative share the lowest set bit only. -/
theorem and_neg_eq_twoPow {x : BitVec 64} (hx : x ≠ 0#64) : x &&& -x = BitVec.twoPow 64 x.ctz.toNat := by
  have hlow : x.getLsbD x.ctz.toNat = true := BitVec.getLsbD_true_ctz_of_ne_zero hx
  have hbelow : ∀ j < x.ctz.toNat, x.getLsbD j = false := fun j hj => BitVec.getLsbD_false_of_lt_ctz hj
  apply BitVec.eq_of_getLsbD_eq
  intro i hi
  rw [BitVec.getLsbD_and, BitVec.getLsbD_neg, BitVec.getLsbD_twoPow]
  by_cases heq : x.ctz.toNat = i
  · have hnone : ¬ ∃ j < i, x.getLsbD j = true := by
      rintro ⟨j, hj, hbit⟩
      rw [hbelow j (heq ▸ hj)] at hbit
      cases hbit
    rw [heq] at hlow
    simp [hlow, hnone, heq, hi]
  · cases hbit : x.getLsbD i with
    | false => simp [heq]
    | true =>
      have hlt : x.ctz.toNat < i := by
        by_contra hge
        rw [hbelow i (by omega)] at hbit
        cases hbit
      have hsome : ∃ j < i, x.getLsbD j = true := ⟨_, hlt, hlow⟩
      simp [hsome, heq, hi]

/-- **The look-up counts the trailing zeros.** -/
theorem trailingZeros64_eq (x : UInt64) : trailingZeros64 x = x.toBitVec.ctz.toNat := by
  by_cases hx : x = 0
  · rw [hx]
    decide +kernel
  have hbv : x.toBitVec ≠ 0#64 := fun h => hx (UInt64.eq_of_toBitVec_eq h)
  have hlt : x.toBitVec.ctz.toNat < 64 := BitVec.ctz_lt_iff_ne_zero.mpr hbv
  have hand : (x &&& -x).toBitVec = BitVec.twoPow 64 x.toBitVec.ctz.toNat := and_neg_eq_twoPow hbv
  have hlookup : ∀ t < 64, deBruijnTable.getD ((⟨BitVec.twoPow 64 t⟩ * 0x03f79d71b4ca8b09 : UInt64) >>> 58).toNat 0
      = t := by decide +kernel
  rw [trailingZeros64, if_neg hx, UInt64.eq_of_toBitVec_eq (b := ⟨BitVec.twoPow 64 x.toBitVec.ctz.toNat⟩) hand]
  exact hlookup _ hlt

/-! ### The strata of a set of keys -/

theorem stratum_insert (se : StrataEstimator) (key : UInt64) (s : Fin strataCount) :
    (se.insert R key).stratum s = if stratumOf key = s then (se.stratum s).insert R key else se.stratum s := by
  have hget : (se.strata.modify (stratumOf key) fun t => t.insert R key)[s]? = some ((se.insert R key).stratum s) :=
    List.getElem?_eq_getElem ((se.insert R key).length_strata.symm ▸ s.isLt)
  have hold : se.strata[s]? = some (se.stratum s) := List.getElem?_eq_getElem (se.length_strata.symm ▸ s.isLt)
  rw [Fin.getElem?_fin, List.getElem?_modify] at hget
  rw [Fin.getElem?_fin] at hold
  rw [hold, Option.map_eq_map, Option.map_some, Option.some.injEq] at hget
  rw [← hget]
  simp only [Fin.ext_iff]

theorem stratum_foldl (keys : List UInt64) (se : StrataEstimator) (s : Fin strataCount) :
    (keys.foldl (insert R) se).stratum s = (keysAt keys s).foldl (IBLT.insert R) (se.stratum s) := by
  induction keys generalizing se with
  | nil => rfl
  | cons key keys ih =>
    have hcons : keysAt (key :: keys) s = if stratumOf key = s then key :: keysAt keys s else keysAt keys s := by
      rw [keysAt, List.filter_cons]
      simp only [decide_eq_true_eq]
      rfl
    rw [List.foldl_cons, ih, stratum_insert, hcons]
    split
    · rfl
    · rfl

/-- **The stratum of a set of keys** is the sketch of the keys of the stratum. -/
theorem stratum_estimatorOf (seed : Seed) (keys : List UInt64) (s : Fin strataCount) :
    (estimatorOf R seed keys).stratum s =
      IBLT.sketchOf R strataIBLTBuckets strataK seed (keysAt keys s) := by
  rw [estimatorOf, stratum_foldl]
  congr 1
  exact List.getElem_replicate _

/-- What the sides of a stratum do not share is what the sides do not share, in the stratum. -/
theorem filter_keysAt (A B : List UInt64) (s : Fin strataCount) :
    (keysAt A s).filter (· ∉ keysAt B s) = keysAt (A.filter (· ∉ B)) s := by
  rw [keysAt, keysAt, keysAt, List.filter_comm, List.filter_filter, List.filter_filter]
  refine List.filter_congr fun key _ => ?_
  by_cases hs : stratumOf key = s
  · simp [hs]
  · simp [hs]

theorem differing_keysAt (A B : List UInt64) (s : Fin strataCount) :
    (differing (keysAt A s) (keysAt B s)).length = (differing A B).countP fun key => stratumOf key = s := by
  rw [differing, filter_keysAt, filter_keysAt, differing, List.countP_append, List.length_append, keysAt, keysAt,
    ← List.countP_eq_length_filter, ← List.countP_eq_length_filter]

/-! ### A stratum peels or is cut short -/

/-- The three buckets of a key are distinct: the step of the double hashing is odd and 80 is a multiple of 16. -/
theorem nodup_getHashes_stratum (seed : Seed) (key : UInt64) :
    ((IBLT.blank strataIBLTBuckets strataK seed).getHashes R key).Nodup := by
  have hget : ∀ h1 h2 : UInt64, ∀ i < 3,
      ((h1 + UInt64.ofNat i * h2) % UInt64.ofNat 80).toNat % 16 = (h1.toNat + i * h2.toNat) % 16 := by
    intro h1 h2 i hi
    interval_cases i <;> simp
  have hodd := IBLT.or_one_odd ((IBLT.blank strataIBLTBuckets strataK seed).hashKey R key >>> 32)
  refine List.Nodup.map_on (fun i hi j hj hij => ?_) List.nodup_range
  have hi : i < 3 := List.mem_range.mp hi
  have hj : j < 3 := List.mem_range.mp hj
  have hmod := congrArg (· % 16) hij
  have hlen : (IBLT.blank strataIBLTBuckets strataK seed).buckets.length = 80 := List.length_replicate
  simp only [hlen] at hmod
  rw [hget _ _ i hi, hget _ _ j hj] at hmod
  interval_cases i <;> interval_cases j <;> omega

variable (R) in
/-- What a stratum of two estimators contributes, with `F` turns for its peel: it lists at most the differing keys of
the stratum, at most one for each bucket, and all of them unless it is cut short. -/
def Contributes (se remote : StrataEstimator) (D : List UInt64) (F : ℕ) (s : Fin strataCount) : Prop :=
  ∃ diff localHas remoteHas incomplete, (se.stratum s).subtract (remote.stratum s) = some diff ∧
    (∀ fuel, F ≤ fuel → diff.peel R fuel = some (localHas, remoteHas, incomplete)) ∧
    localHas.length + remoteHas.length ≤ strataIBLTBuckets ∧
    localHas.length + remoteHas.length ≤ (D.countP fun key => stratumOf key = s) ∧
    (incomplete = false → localHas.length + remoteHas.length = D.countP fun key => stratumOf key = s)

/-- **A stratum of two sets of keys** lists their differing keys, or a part of them. -/
theorem stratum_contributes {seed : Seed} {A B : List UInt64} (hA : A.Nodup) (hB : B.Nodup) (s : Fin strataCount)
    (hfalse : IBLT.NoFalsePureBucket R strataIBLTBuckets strataK seed (keysAt A s) (keysAt B s)) :
    ∃ F, ∀ F' ≥ F, Contributes R (estimatorOf R seed A) (estimatorOf R seed B) (differing A B) F' s := by
  have hk : 0 < strataK := by decide
  have hn : 0 < strataIBLTBuckets := by decide
  have hmax : strataIBLTBuckets < 2 ^ 63 := by decide
  have hdistinct : IBLT.DistinctTargets R strataIBLTBuckets strataK seed (keysAt A s ++ keysAt B s) :=
    fun key _ => nodup_getHashes_stratum seed key
  obtain ⟨diff, hdiff, -⟩ := IBLT.subtract_sketchOf (R := R) strataIBLTBuckets strataK seed (keysAt A s) (keysAt B s)
  have hstart : IBLT.Residual R hk strataIBLTBuckets seed _ _ (IBLT.peelStart R diff) _ _ :=
    IBLT.residual_start (A := keysAt A s) (B := keysAt B s) (hA.filter _) (hB.filter _) hdistinct hdiff
  have hpure : (IBLT.sketchAt R strataIBLTBuckets hk seed).NoFalsePure _ _ := hfalse.noFalsePure hdistinct hn hmax
  have hdistinct' := IBLT.distinctTargets_filter hdistinct
  obtain ⟨F, hnil⟩ := hstart.ends hpure hdistinct'
  obtain ⟨A', B', hend⟩ := hstart.iterate hpure hdistinct' F
  -- the queue is empty after `F` turns, so more turns change nothing
  set last := (IBLT.peelStep R)^[F] (IBLT.peelStart R diff) with hlast
  have hpeel : ∀ fuel, F ≤ fuel →
      diff.peel R fuel = some (last.localHas, last.remoteHas, last.table.buckets.any (· ≠ 0)) := by
    intro fuel hle
    obtain ⟨j, rfl⟩ := Nat.exists_eq_add_of_le' hle
    rw [IBLT.peel_eq_some_iff, Function.iterate_add_apply, ← hlast, IBLT.iterate_peelStep_of_nil hnil]
    exact ⟨hnil, rfl, rfl, rfl⟩
  have hlocal := hend.localHas.length_eq
  have hremote := hend.remoteHas.length_eq
  rw [List.length_append] at hlocal hremote
  have hcount := differing_keysAt A B s
  rw [differing, List.length_append] at hcount
  refine ⟨F, fun F' hF' => ⟨diff, _, _, _, ?_, fun fuel hle => hpeel fuel (hF'.trans hle),
    hstart.listed_le hpure hdistinct' hn hmax (hpeel F (Nat.le_refl F)), by omega, fun hzero => ?_⟩⟩
  · rw [stratum_estimatorOf, stratum_estimatorOf]
    exact hdiff
  · obtain ⟨hall, hall'⟩ := hend.complete hpure hn hmax hzero
    rw [← hcount, hall.length_eq, hall'.length_eq]

/-! ### The estimate -/

theorem ofNat_shiftLeft (c : ℕ) {j : ℕ} (hj : j < 64) :
    Int64.ofNat c <<< Int64.ofNat j = Int64.ofNat (c * 2 ^ j) := by
  have hmod : (Int64.ofNat j).toBitVec.smod 64 = BitVec.ofNat 64 j := by
    have hsmall : ∀ j < 64, (Int64.ofNat j).toBitVec.smod 64 = BitVec.ofNat 64 j := by decide +kernel
    exact hsmall j hj
  have hword : j % 18446744073709551616 = j := Nat.mod_eq_of_lt (by omega)
  apply Int64.toBitVec_inj.mp
  apply BitVec.eq_of_toNat_eq
  rw [Int64.toBitVec_shiftLeft, hmod]
  simp [BitVec.shiftLeft_eq', Nat.shiftLeft_eq, hword]

section
variable {se remote : StrataEstimator} {D : List UInt64} {F : ℕ}

/-- A stratum peels if its listing is complete. -/
theorem peels_iff_complete {s : Fin strataCount} {diff : IBLT} {localHas remoteHas : List UInt64} {incomplete : Bool}
    (hdiff : (se.stratum s).subtract (remote.stratum s) = some diff)
    (hpeel : ∀ fuel, F ≤ fuel → diff.peel R fuel = some (localHas, remoteHas, incomplete)) :
    Peels R se remote s ↔ incomplete = false := by
  constructor
  · rintro ⟨diff', fuel, l, r, hdiff', hpeel'⟩
    obtain rfl : diff' = diff := Option.some.inj (hdiff'.symm.trans hdiff)
    obtain ⟨hnil, -, -, hzero⟩ := IBLT.peel_eq_some_iff.mp hpeel'
    obtain ⟨-, -, -, hinc⟩ := IBLT.peel_eq_some_iff.mp (hpeel (F + fuel) (Nat.le_add_right _ _))
    rw [Function.iterate_add_apply, IBLT.iterate_peelStep_of_nil hnil] at hinc
    exact hinc.symm.trans hzero
  · rintro rfl
    exact ⟨diff, F, localHas, remoteHas, hdiff, hpeel F (Nat.le_refl F)⟩

theorem countP_stratum_le (s : ℕ) (hs : s < strataCount) :
    (D.countP fun key => s ≤ (stratumOf key : ℕ)) =
      (D.countP fun key => s + 1 ≤ (stratumOf key : ℕ)) + D.countP fun key => stratumOf key = ⟨s, hs⟩ := by
  induction D with
  | nil => rfl
  | cons key D ih =>
    simp only [List.countP_cons, ih, decide_eq_true_eq, Fin.ext_iff]
    split_ifs <;> omega

/-- **The loop from stratum `s` downwards**, when the strata from `s` on have been listed completely. -/
theorem estimateFrom_spec (h : ∀ s, Contributes R se remote D F s) (s : ℕ) (hs : s ≤ strataCount) {c : ℕ}
    (hc : c = D.countP fun key => s ≤ (stratumOf key : ℕ)) (hbound : c ≤ strataIBLTBuckets * (strataCount - s)) :
    ∃ v < 2 ^ 63, (∀ fuel, F ≤ fuel → estimateFrom R fuel se remote s hs (Int64.ofNat c) = some (Int64.ofNat v)) ∧
      ((∀ t : Fin strataCount, t < s → Peels R se remote t) → v = D.length) ∧
      ∀ t : Fin strataCount, t < s → ¬ Peels R se remote t →
        (∀ t' : Fin strataCount, t' < s → t < t' → Peels R se remote t') →
        (D.countP fun key => t < stratumOf key) * 2 ^ (t + 1 : ℕ) ≤ v ∧
          v ≤ (D.countP fun key => t ≤ stratumOf key) * 2 ^ (t + 1 : ℕ) := by
  rw [strataCount, strataIBLTBuckets] at hbound
  induction s generalizing c with
  | zero =>
    have hall : c = D.length := by
      rw [hc, List.countP_eq_length]
      intro key _
      exact decide_eq_true (Nat.zero_le _)
    exact ⟨c, by omega, fun fuel _ => rfl, fun _ => hall, fun t ht => absurd ht (Nat.not_lt_zero _)⟩
  | succ s ih =>
    obtain ⟨diff, localHas, remoteHas, incomplete, hdiff, hpeel, hbuckets, hle, hcomplete⟩ := h ⟨s, hs⟩
    have hpeels := peels_iff_complete hdiff hpeel
    have hsplit := countP_stratum_le (D := D) s hs
    rw [← hc] at hsplit
    rw [strataIBLTBuckets] at hbuckets
    set c' := c + localHas.length + remoteHas.length with hc'
    have hsum : Int64.ofNat c + Int64.ofNat localHas.length + Int64.ofNat remoteHas.length = Int64.ofNat c' := by
      rw [← Int64.ofNat_add, ← Int64.ofNat_add]
    have hstep : ∀ fuel, F ≤ fuel → estimateFrom R fuel se remote (s + 1) hs (Int64.ofNat c) =
        if incomplete then some (Int64.ofNat c' <<< Int64.ofNat (s + 1))
        else estimateFrom R fuel se remote s (Nat.le_of_succ_le hs) (Int64.ofNat c') := by
      intro fuel hfuel
      rw [estimateFrom, hdiff]
      dsimp only
      rw [hpeel fuel hfuel]
      dsimp only
      rw [hsum]
    have hs' : s + 1 ≤ 32 := hs
    cases incomplete with
    | true =>
      -- the stratum is cut short: its sum is scaled
      have hnot : ¬ Peels R se remote ⟨s, hs⟩ := fun hp => absurd (hpeels.mp hp) (by decide)
      refine ⟨c' * 2 ^ (s + 1), ?_, fun fuel hfuel => ?_, fun hall => absurd (hall ⟨s, hs⟩ (Nat.lt_succ_self s)) hnot,
        fun t ht htnot habove => ?_⟩
      · calc c' * 2 ^ (s + 1) ≤ 2560 * 2 ^ 32 :=
              Nat.mul_le_mul (by omega) (Nat.pow_le_pow_right (by decide) hs')
          _ < 2 ^ 63 := by decide
      · rw [hstep fuel hfuel, if_pos rfl, ofNat_shiftLeft c' (by omega)]
      · have heq : t = ⟨s, hs⟩ := by
          by_contra hne
          have hlt : (t : ℕ) < s := by
            have hval : (t : ℕ) ≠ s := fun hval => hne (Fin.ext hval)
            omega
          exact hnot (habove ⟨s, hs⟩ (Nat.lt_succ_self s) hlt)
        subst heq
        have habove' : (D.countP fun key => (⟨s, hs⟩ : Fin strataCount) < stratumOf key) = c := hc.symm
        have hfrom : (D.countP fun key => (⟨s, hs⟩ : Fin strataCount) ≤ stratumOf key) =
            D.countP fun key => s ≤ (stratumOf key : ℕ) := rfl
        rw [habove', hfrom]
        exact ⟨Nat.mul_le_mul_right _ (by omega), Nat.mul_le_mul_right _ (by omega)⟩
    | false =>
      have hp : Peels R se remote ⟨s, hs⟩ := hpeels.mpr rfl
      have hall := hcomplete rfl
      obtain ⟨v, hv, hest, hexact, hcut⟩ := ih (Nat.le_of_succ_le hs) (c := c') (by omega) (by omega)
      refine ⟨v, hv, fun fuel hfuel => ?_, fun hall => hexact fun t ht => hall t (Nat.lt_succ_of_lt ht),
        fun t ht htnot habove => ?_⟩
      · rw [hstep fuel hfuel, if_neg Bool.false_ne_true]
        exact hest fuel hfuel
      · have hval : (t : ℕ) ≠ s := fun hval => htnot ((Fin.ext hval : t = ⟨s, hs⟩) ▸ hp)
        exact hcut t (by omega) htnot fun t' ht' => habove t' (Nat.lt_succ_of_lt ht')

end

/-- **Strata estimates.**  For all finite sets of keys, inserted in any order into estimators of one seed, with a purity
check that is sound on the difference of every stratum: `Estimate` returns; if every stratum of the difference peels it
is the number of differing keys; and if `s` is the highest stratum that does not peel, it lies between the number of
differing keys above `s` and the number of those from `s` on, both times `2 ^ (s + 1)`. -/
theorem estimate_is_exact (R : Runtime) (seed : Seed) (A B : List UInt64) (hA : A.Nodup) (hB : B.Nodup)
    (hfalse : ∀ s, IBLT.NoFalsePureBucket R strataIBLTBuckets strataK seed (keysAt A s) (keysAt B s)) :
    ∃ (v : Int64) (fuel₀ : ℕ),
      (∀ fuel, fuel₀ ≤ fuel → (estimatorOf R seed A).estimate R fuel (estimatorOf R seed B) = some v) ∧
      ((∀ s, Peels R (estimatorOf R seed A) (estimatorOf R seed B) s) → v.toInt = (differing A B).length) ∧
      ∀ s, ¬ Peels R (estimatorOf R seed A) (estimatorOf R seed B) s →
        (∀ t, s < t → Peels R (estimatorOf R seed A) (estimatorOf R seed B) t) →
        (((differing A B).countP fun key => s < stratumOf key) * 2 ^ (s + 1 : ℕ) : ℕ) ≤ v.toInt ∧
          v.toInt ≤ (((differing A B).countP fun key => s ≤ stratumOf key) * 2 ^ (s + 1 : ℕ) : ℕ) := by
  choose F hF using fun s => stratum_contributes hA hB s (hfalse s)
  have hall : ∀ s, Contributes R (estimatorOf R seed A) (estimatorOf R seed B) (differing A B)
      (Finset.univ.sup F) s := fun s => hF s _ (Finset.le_sup (Finset.mem_univ s))
  have hnone : 0 = (differing A B).countP fun key => strataCount ≤ (stratumOf key : ℕ) := by
    rw [eq_comm, List.countP_eq_zero]
    intro key _ hge
    exact absurd (stratumOf key).isLt (Nat.not_lt.mpr (of_decide_eq_true hge))
  obtain ⟨v, hv, hest, hexact, hcut⟩ := estimateFrom_spec hall strataCount (Nat.le_refl _) hnone (Nat.zero_le _)
  have hint : (Int64.ofNat v).toInt = v := Int64.toInt_ofNat_of_lt hv
  refine ⟨Int64.ofNat v, Finset.univ.sup F, hest, fun hpeels => ?_, fun s hs habove => ?_⟩
  · rw [hint, hexact fun t _ => hpeels t]
  · obtain ⟨hlow, hhigh⟩ := hcut s s.isLt hs fun t _ hlt => habove t hlt
    rw [hint]
    exact ⟨Int.ofNat_le.mpr hlow, Int.ofNat_le.mpr hhigh⟩

/-- One key on each side, in different strata. -/
theorem estimate_is_exact_on_two_keys : ∃ (v : Int64) (fuel₀ : ℕ),
    (∀ fuel, fuel₀ ≤ fuel → (estimatorOf Runtime.sample 7 [4]).estimate Runtime.sample fuel
      (estimatorOf Runtime.sample 7 [5]) = some v) ∧ v.toInt = 2 := by
  have hfew : ∀ s, ((keysAt [4] s).filter (· ∉ keysAt [5] s) ++ (keysAt [5] s).filter (· ∉ keysAt [4] s)).length < 2 := by
    decide +kernel
  have hpeels : ∀ s, Peels Runtime.sample (estimatorOf Runtime.sample 7 [4]) (estimatorOf Runtime.sample 7 [5]) s := by
    intro s
    have hrun : (((estimatorOf Runtime.sample 7 [4]).stratum s).subtract
        ((estimatorOf Runtime.sample 7 [5]).stratum s)).any (fun diff =>
          (diff.peel Runtime.sample 9).any fun out => !out.2.2) = true := by
      revert s
      decide +kernel
    obtain ⟨diff, hdiff, hrun⟩ := (Option.any_eq_true _ _).mp hrun
    obtain ⟨⟨localHas, remoteHas, incomplete⟩, hpeel, hzero⟩ := (Option.any_eq_true _ _).mp hrun
    obtain rfl : incomplete = false := by simpa using hzero
    exact ⟨diff, 9, localHas, remoteHas, hdiff, hpeel⟩
  obtain ⟨v, fuel₀, hest, hexact, -⟩ := estimate_is_exact Runtime.sample 7 [4] [5] (by decide) (by decide)
    fun s => IBLT.noFalsePureBucket_of_checksumsApart (by decide) (fun key _ => nodup_getHashes_stratum 7 key)
      fun S hS hsub htwo => absurd (hS.length_le_of_subset hsub) (by have := hfew s; omega)
  exact ⟨v, fuel₀, hest, hexact hpeels⟩

end StrataEstimator

end Sovereign.Sync

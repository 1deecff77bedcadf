import Sovereign.Sync.Iblt

/-!
# Digests on the wire

`MarshalIBLT` and `UnmarshalIBLT` of `iblt_wire.go`: a fixed header (magic, number of buckets, number
of hashes, seed) and the buckets, all little endian.

* `unmarshalIBLT_marshalIBLT` — a table in the accepted range is read back, whatever follows it;
* `accepted_iff` — the decoder bounds the number of buckets and of hashes and nothing else: every
  bucket array within the bounds is the reading of some byte string.

A seed is its backing word (`SeedToUint64`, `Uint64ToSeed`).
-/

namespace Sovereign.Sync

open Lib

def ibltWireMagic : ℕ := 0x49424C31

def ibltWireHeaderLen : ℕ := 4 + 4 + 2 + 8

def bucketWireLen : ℕ := 4 + 8 + 8

/-- `maxIBLTBuckets`: the ingress cap over the 24 bytes of a bucket in memory. -/
def maxIBLTBuckets : ℕ := 16 * 2 ^ 20 / 24

inductive IBLTWireError where
  | shortHeader (got : ℕ)
  | magicMismatch (got : ℕ)
  | tooLarge (numBuckets : ℕ)
  | hashCount (k : ℕ)
  | shortBuckets (got want numBuckets : ℕ)
deriving DecidableEq

def putBucket (b : Bucket) : Bytes :=
  putLE 4 b.count.toUInt32.toNat ++ (putLE 8 b.keySum.toNat ++ putLE 8 b.hashSum.toNat)

def getBucket (wire : Bytes) (off : ℕ) : Bucket :=
  ⟨(UInt32.ofNat (getLE (slice wire off 4))).toInt32, UInt64.ofNat (getLE (slice wire (off + 4) 8)),
    UInt64.ofNat (getLE (slice wire (off + 12) 8))⟩

def marshalIBLT (t : IBLT) : Bytes :=
  putLE 4 ibltWireMagic ++ (putLE 4 t.buckets.length ++ (putLE 2 t.k ++ (putLE 8 t.seed.toNat ++
    t.buckets.flatMap putBucket)))

def unmarshalIBLT (wire : Bytes) : Except IBLTWireError IBLT :=
  if wire.length < ibltWireHeaderLen then .error (.shortHeader wire.length)
  else if getLE (slice wire 0 4) ≠ ibltWireMagic then .error (.magicMismatch (getLE (slice wire 0 4)))
  else
    let n := getLE (slice wire 4 4)
    if maxIBLTBuckets < n then .error (.tooLarge n)
    else
      let k := getLE (slice wire 8 2)
      if k = 0 ∨ ibltMaxK < k then .error (.hashCount k)
      else if wire.length < ibltWireHeaderLen + n * bucketWireLen then
        .error (.shortBuckets wire.length (ibltWireHeaderLen + n * bucketWireLen) n)
      else
        .ok ⟨(List.range n).map fun i => getBucket wire (ibltWireHeaderLen + i * bucketWireLen), k,
          UInt64.ofNat (getLE (slice wire 10 8))⟩

@[simp] theorem length_putBucket (b : Bucket) : (putBucket b).length = bucketWireLen := by
  simp [putBucket, bucketWireLen]

theorem getBucket_skip {xs : Bytes} {off : ℕ} (hle : xs.length ≤ off) (ys : Bytes) :
    getBucket (xs ++ ys) off = getBucket ys (off - xs.length) := by
  have h4 : off + 4 - xs.length = off - xs.length + 4 := by omega
  have h12 : off + 12 - xs.length = off - xs.length + 12 := by omega
  rw [getBucket, slice_skip hle, slice_skip (by omega), slice_skip (by omega), h4, h12]
  rfl

theorem getBucket_putBucket (b : Bucket) (rest : Bytes) : getBucket (putBucket b ++ rest) 0 = b := by
  have hcount : getLE (putLE 4 b.count.toUInt32.toNat) = b.count.toUInt32.toNat :=
    getLE_putLE_of_lt (toNat_lt_256_pow_4 _)
  have hkey : getLE (putLE 8 b.keySum.toNat) = b.keySum.toNat := getLE_putLE_of_lt (toNat_lt_256_pow_8 _)
  have hhash : getLE (putLE 8 b.hashSum.toNat) = b.hashSum.toNat := getLE_putLE_of_lt (toNat_lt_256_pow_8 _)
  simp [getBucket, putBucket, slice_head, slice_skip, hcount, hkey, hhash]

theorem getBucket_flatMap (bs : List Bucket) (rest : Bytes) (i : ℕ) (hi : i < bs.length) :
    getBucket (bs.flatMap putBucket ++ rest) (i * bucketWireLen) = bs[i] := by
  induction bs generalizing i with
  | nil => cases hi
  | cons b bs ih =>
    rw [List.flatMap_cons, List.append_assoc]
    cases i with
    | zero => simpa using getBucket_putBucket b _
    | succ i =>
      have hle : (putBucket b).length ≤ (i + 1) * bucketWireLen := by
        rw [length_putBucket]
        exact Nat.le_mul_of_pos_left _ (Nat.succ_pos i)
      have hoff : (i + 1) * bucketWireLen - (putBucket b).length = i * bucketWireLen := by
        rw [length_putBucket, Nat.succ_mul, Nat.add_sub_cancel]
      rw [getBucket_skip hle, hoff, ih i (Nat.lt_of_succ_lt_succ hi)]
      rfl

/-- The tables the decoder lets through. -/
structure IBLT.Accepted (t : IBLT) : Prop where
  k_pos : 0 < t.k
  k_le : t.k ≤ ibltMaxK
  length_le : t.buckets.length ≤ maxIBLTBuckets

/-- **A digest is read back**, whatever follows it on the wire. -/
theorem unmarshalIBLT_marshalIBLT {t : IBLT} (h : t.Accepted) (rest : Bytes) :
    unmarshalIBLT (marshalIBLT t ++ rest) = .ok t := by
  have hk := h.k_le
  have hn := h.length_le
  rw [ibltMaxK] at hk
  have hmax : maxIBLTBuckets < 256 ^ 4 := by decide
  have hmagic : getLE (putLE 4 ibltWireMagic) = ibltWireMagic := getLE_putLE_of_lt (by decide)
  have hlen : getLE (putLE 4 t.buckets.length) = t.buckets.length := getLE_putLE_of_lt (by omega)
  have hkk : getLE (putLE 2 t.k) = t.k := getLE_putLE_of_lt (by omega)
  have hseed : getLE (putLE 8 t.seed.toNat) = t.seed.toNat := getLE_putLE_of_lt (toNat_lt_256_pow_8 _)
  set wire := marshalIBLT t ++ rest with hwire
  have hsize : wire.length = ibltWireHeaderLen + t.buckets.length * bucketWireLen + rest.length := by
    rw [hwire, List.length_append, marshalIBLT]
    simp [ibltWireHeaderLen]
    omega
  have h0 : slice wire 0 4 = putLE 4 ibltWireMagic := by
    simp [hwire, marshalIBLT, slice_head]
  have h4 : slice wire 4 4 = putLE 4 t.buckets.length := by
    simp [hwire, marshalIBLT, slice_head, slice_skip]
  have h8 : slice wire 8 2 = putLE 2 t.k := by
    simp [hwire, marshalIBLT, slice_head, slice_skip]
  have h10 : slice wire 10 8 = putLE 8 t.seed.toNat := by
    simp [hwire, marshalIBLT, slice_head, slice_skip]
  have hbucket : ∀ i (hi : i < t.buckets.length),
      getBucket wire (ibltWireHeaderLen + i * bucketWireLen) = t.buckets[i] := by
    intro i hi
    have hskip : wire = (putLE 4 ibltWireMagic ++ putLE 4 t.buckets.length ++ putLE 2 t.k ++
        putLE 8 t.seed.toNat) ++ (t.buckets.flatMap putBucket ++ rest) := by
      simp [hwire, marshalIBLT]
    rw [hskip, getBucket_skip (by simp [ibltWireHeaderLen]), ← getBucket_flatMap t.buckets rest i hi]
    congr 1
    simp [ibltWireHeaderLen]
  have hbuckets : ((List.range t.buckets.length).map fun i =>
      getBucket wire (ibltWireHeaderLen + i * bucketWireLen)) = t.buckets := by
    refine List.ext_getElem (by simp) fun i hi hi' => ?_
    rw [List.getElem_map, List.getElem_range, hbucket i hi']
  rw [unmarshalIBLT, if_neg (by rw [hsize]; omega), h0, hmagic, if_neg (by simp)]
  simp only [h4, hlen, h8, hkk, h10, hseed, hbuckets, UInt64.ofNat_toNat]
  rw [if_neg (by omega), if_neg (by have := h.k_pos; rw [ibltMaxK]; omega), if_neg (by omega)]

/-- **The decoder** bounds the two sizes and leaves seed and buckets to the sender. -/
theorem accepted_iff {t : IBLT} : (∃ wire, unmarshalIBLT wire = .ok t) ↔ t.Accepted := by
  constructor
  · rintro ⟨wire, h⟩
    simp only [unmarshalIBLT] at h
    split_ifs at h with _ _ hmax hk _
    cases h
    rw [not_or, Nat.not_lt] at hk
    exact ⟨Nat.pos_of_ne_zero hk.1, hk.2, by simpa using hmax⟩
  · intro h
    exact ⟨_, unmarshalIBLT_marshalIBLT h []⟩

theorem IBLT.Accepted.subtract {t u diff : IBLT} (h : t.Accepted) (hdiff : t.subtract u = some diff) :
    diff.Accepted := by
  rw [IBLT.subtract] at hdiff
  split_ifs at hdiff with hne
  cases hdiff
  refine ⟨h.k_pos, h.k_le, ?_⟩
  rw [List.length_zipWith]
  exact (Nat.min_le_left _ _).trans h.length_le

end Sovereign.Sync

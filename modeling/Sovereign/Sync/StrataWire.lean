import Sovereign.Lib.Checked
import Sovereign.Sync.Strata

/-!
# Sketches from untrusted bytes

The decoders of `iblt_wire.go`, `UnmarshalIBLT` and `UnmarshalStrataEstimator`, with every access to the
input checked and every allocation counted, and `MarshalStrataEstimator`.

* `checkedUnmarshalIBLT_eq` — the decoder of a table never reads out of range; it allocates the table, and
  only once the input has been found long enough for it.
* `marshalIBLT_of_unmarshalIBLT` — what it accepts is the encoding of what it returns.
* `strataLoop_spec` — the loop over the strata consumes the encodings of the tables it stores; the offset
  stays within the input and the memory within a multiple of what has been consumed.

A digest of a stratum says how long it is, so the position of the next one is the sender's choice.
Allocations are the structures, the bucket arrays and nothing else: the texts of errors have a fixed size.
-/

namespace Sovereign.Sync

open Lib

/-! ### Tables -/

def bucketSize : ℕ := 24

/-- The size of an `IBLT` in memory: slice header, hash count, seed, arena reference and offsets. -/
def ibltSize : ℕ := 24 + 8 + 8 + 8 + 8 + 8

/-- `NewIBLTWithSeed`, with its panic and its memory. -/
def checkedNewIBLTWithSeed {ε : Type} (numBuckets k : ℕ) (seed : Seed) : Checked ε IBLT := do
  let t ← Checked.orPanic (newIBLTWithSeed numBuckets k seed)
  Checked.alloc (ibltSize + numBuckets * bucketSize)
  return t

/-- The accesses of one turn of the loop over the buckets. -/
def checkedGetBucket {ε : Type} (wire : Bytes) (off : ℕ) : Checked ε Bucket := do
  let count ← Checked.slice wire off (off + 4)
  let keySum ← Checked.slice wire (off + 4) (off + 12)
  let hashSum ← Checked.slice wire (off + 12) (off + 20)
  return ⟨(UInt32.ofNat (getLE count)).toInt32, UInt64.ofNat (getLE keySum), UInt64.ofNat (getLE hashSum)⟩

def checkedUnmarshalIBLT (wire : Bytes) : Checked IBLTWireError IBLT := do
  Checked.failIf (wire.length < ibltWireHeaderLen) (.shortHeader wire.length)
  let magic ← Checked.slice wire 0 4
  Checked.failIf (getLE magic ≠ ibltWireMagic) (.magicMismatch (getLE magic))
  let numBuckets ← Checked.slice wire 4 8
  let n := getLE numBuckets
  Checked.failIf (maxIBLTBuckets < n) (.tooLarge n)
  let hashes ← Checked.slice wire 8 10
  let k := getLE hashes
  Checked.failIf (k = 0 ∨ ibltMaxK < k) (.hashCount k)
  Checked.failIf (wire.length < ibltWireHeaderLen + n * bucketWireLen)
    (.shortBuckets wire.length (ibltWireHeaderLen + n * bucketWireLen) n)
  let seed ← Checked.slice wire 10 18
  let t ← checkedNewIBLTWithSeed n k (UInt64.ofNat (getLE seed))
  let buckets ← (List.range n).mapM fun i => checkedGetBucket wire (ibltWireHeaderLen + i * bucketWireLen)
  return { t with buckets := buckets }

variable {wire : Bytes} {ε : Type} {se : StrataEstimator}

theorem checkedNewIBLTWithSeed_eq {k : ℕ} (hk : ¬ (k = 0 ∨ ibltMaxK < k)) (n : ℕ) (seed : Seed) :
    (checkedNewIBLTWithSeed n k seed : Checked ε IBLT) = ⟨.value (IBLT.blank n k seed), ibltSize + n * bucketSize⟩ := by
  rw [checkedNewIBLTWithSeed, newIBLTWithSeed, if_neg hk]
  exact Checked.ext rfl (Nat.zero_add _)

def IBLT.memory (t : IBLT) : ℕ := ibltSize + t.buckets.length * bucketSize

theorem checkedGetBucket_eq {off : ℕ} (h : off + bucketWireLen ≤ wire.length) :
    (checkedGetBucket wire off : Checked ε Bucket) = pure (getBucket wire off) := by
  rw [bucketWireLen] at h
  rw [checkedGetBucket, Checked.slice_eq (by omega) (by omega), pure_bind, Checked.slice_eq (by omega) (by omega),
    pure_bind, Checked.slice_eq (by omega) (by omega), pure_bind]
  simp only [Nat.add_sub_cancel_left, Nat.add_sub_add_left]
  rfl

/-- **The decoder of a table** does not panic, and allocates the table it returns. -/
theorem checkedUnmarshalIBLT_eq (wire : Bytes) :
    checkedUnmarshalIBLT wire = Checked.ofExcept IBLT.memory (unmarshalIBLT wire) := by
  rw [checkedUnmarshalIBLT, unmarshalIBLT]
  refine Checked.failIf_bind_eq _ Iff.rfl rfl fun hhead => ?_
  have hlen : 18 ≤ wire.length := Nat.not_lt.mp hhead
  rw [Checked.slice_eq (by omega) (by omega), pure_bind]
  refine Checked.failIf_bind_eq _ Iff.rfl rfl fun _ => ?_
  rw [Checked.slice_eq (by omega) (by omega), pure_bind]
  refine Checked.failIf_bind_eq _ Iff.rfl rfl fun _ => ?_
  rw [Checked.slice_eq (by omega) (by omega), pure_bind]
  refine Checked.failIf_bind_eq _ Iff.rfl rfl fun hk => ?_
  refine Checked.failIf_bind_eq _ Iff.rfl rfl fun hshort => ?_
  simp only [Nat.reduceSub] at hshort
  rw [Checked.slice_eq (by omega) (by omega), pure_bind]
  -- the table is allocated here, and the input is known to hold its buckets
  rw [checkedNewIBLTWithSeed_eq hk, Checked.value_bind, Checked.mapM_eq fun i hi => checkedGetBucket_eq ?_,
    Checked.value_bind]
  · refine Checked.ext rfl ?_
    show ibltSize + getLE (slice wire 4 4) * bucketSize + ((List.range _).length * 0 + 0) = IBLT.memory _
    rw [Nat.mul_zero, Nat.add_zero, IBLT.memory, List.length_map, List.length_range]
  · have hmul : (i + 1) * bucketWireLen ≤ getLE (slice wire 4 4) * bucketWireLen :=
      Nat.mul_le_mul_right _ (List.mem_range.mp hi)
    rw [Nat.succ_mul] at hmul
    omega

/-! ### Canonicity -/

theorem putBucket_getBucket {off : ℕ} (h : off + bucketWireLen ≤ wire.length) :
    putBucket (getBucket wire off) = slice wire off bucketWireLen := by
  rw [bucketWireLen] at h
  have hcount : putLE 4 (getBucket wire off).count.toUInt32.toNat = slice wire off 4 := by
    have hlen : (slice wire off 4).length = 4 := slice_length (by omega)
    have hback : (getBucket wire off).count.toUInt32.toNat = getLE (slice wire off 4) := by
      show (UInt32.ofNat (getLE (slice wire off 4))).toInt32.toUInt32.toNat = _
      rw [UInt32.toUInt32_toInt32, UInt32.toNat_ofNat_of_lt' (getLE_lt hlen)]
    rw [hback, putLE_getLE hlen]
  have hword : ∀ d ≤ 12, putLE 8 (UInt64.ofNat (getLE (slice wire (off + d) 8))).toNat = slice wire (off + d) 8 := by
    intro d hd
    have hlen : (slice wire (off + d) 8).length = 8 := slice_length (by omega)
    rw [UInt64.toNat_ofNat_of_lt' (getLE_lt hlen), putLE_getLE hlen]
  rw [putBucket, hcount]
  show slice wire off 4 ++ (putLE 8 (UInt64.ofNat _).toNat ++ putLE 8 (UInt64.ofNat _).toNat) = _
  rw [hword 4 (by decide), hword 12 (by decide), slice_append, slice_append]
  rfl

def IBLT.wireLen (t : IBLT) : ℕ := ibltWireHeaderLen + t.buckets.length * bucketWireLen

theorem length_marshalIBLT (t : IBLT) : (marshalIBLT t).length = t.wireLen := by
  have hbuckets : (t.buckets.flatMap putBucket).length = t.buckets.length * bucketWireLen := by
    rw [List.length_flatMap, List.map_congr_left fun b _ => length_putBucket b, List.map_const', List.sum_replicate,
      smul_eq_mul]
  rw [marshalIBLT, IBLT.wireLen, List.length_append, List.length_append, List.length_append, List.length_append,
    hbuckets, putLE_length, putLE_length, putLE_length, putLE_length, ibltWireHeaderLen]
  omega

/-- **What the decoder accepts is an encoding**: that of the table it returns. -/
theorem marshalIBLT_of_unmarshalIBLT {t : IBLT} (h : unmarshalIBLT wire = .ok t) :
    t.wireLen ≤ wire.length ∧ marshalIBLT t = wire.take t.wireLen := by
  simp only [unmarshalIBLT] at h
  split_ifs at h with hhead hmagic hmax hk hshort
  have hlen : 18 ≤ wire.length := Nat.not_lt.mp hhead
  set n := getLE (slice wire 4 4) with hn
  obtain rfl := (Except.ok.inj h).symm
  have hwire : IBLT.wireLen ⟨(List.range n).map fun i => getBucket wire (ibltWireHeaderLen + i * bucketWireLen),
      getLE (slice wire 8 2), UInt64.ofNat (getLE (slice wire 10 8))⟩ = ibltWireHeaderLen + n * bucketWireLen := by
    rw [IBLT.wireLen, List.length_map, List.length_range]
  rw [hwire]
  refine ⟨Nat.not_lt.mp hshort, ?_⟩
  have hfield : ∀ off len, off + len ≤ 18 → putLE len (getLE (slice wire off len)) = slice wire off len :=
    fun off len hle => putLE_getLE (slice_length (by omega))
  have hseed : (UInt64.ofNat (getLE (slice wire 10 8))).toNat = getLE (slice wire 10 8) :=
    UInt64.toNat_ofNat_of_lt' (getLE_lt (slice_length (by omega)))
  have hbuckets : ((List.range n).map fun i => getBucket wire (ibltWireHeaderLen + i * bucketWireLen)).flatMap putBucket
      = slice wire ibltWireHeaderLen (n * bucketWireLen) := by
    rw [← flatMap_slice, List.flatMap_map]
    refine List.flatMap_congr fun i hi => putBucket_getBucket ?_
    have hmul : (i + 1) * bucketWireLen ≤ n * bucketWireLen := Nat.mul_le_mul_right _ (List.mem_range.mp hi)
    rw [Nat.succ_mul] at hmul
    omega
  rw [marshalIBLT, hbuckets, List.length_map, List.length_range, hn, hseed, ← of_not_not hmagic, hfield 0 4 (by decide),
    hfield 4 4 (by decide), hfield 8 2 (by decide), hfield 10 8 (by decide)]
  show slice wire 0 4 ++ (slice wire (0 + 4) 4 ++ (slice wire (4 + 4) 2 ++ (slice wire (8 + 2) 8 ++
    slice wire (10 + 8) _))) = _
  rw [slice_append, slice_append, slice_append, slice_append]
  rw [slice, List.drop_zero, ibltWireHeaderLen]
  congr 1
  omega

/-! ### Estimators -/

def strataWireMagic : ℕ := 0x53545241

def strataWireHeaderLen : ℕ := 4 + 1 + 8

/-- The size of a `StrataEstimator` in memory: a pointer for each stratum, and the seed. -/
def strataEstimatorSize : ℕ := strataCount * 8 + 8

inductive StrataWireError where
  | shortHeader (got : ℕ)
  | magicMismatch (got : ℕ)
  | strataCount (n : ℕ)
  | stratum (i : ℕ) (e : IBLTWireError)
deriving DecidableEq

def marshalStrataEstimator (se : StrataEstimator) : Bytes :=
  putLE 4 strataWireMagic ++ ([UInt8.ofNat strataCount] ++ (putLE 8 se.seed.toNat ++ se.strata.flatMap marshalIBLT))

/-- The assignment `se.strata[i] = t`. -/
def StrataEstimator.setStratum (se : StrataEstimator) (i : ℕ) (t : IBLT) : StrataEstimator :=
  ⟨se.strata.set i t, se.seed, List.length_set.trans se.length_strata⟩

def checkedNewStrataEstimator {ε : Type} (seed : Seed) : Checked ε StrataEstimator := do
  Checked.alloc strataEstimatorSize
  let _ ← (List.range strataCount).mapM fun _ => checkedNewIBLTWithSeed strataIBLTBuckets strataK seed
  return StrataEstimator.new seed

/-- The loop of `UnmarshalStrataEstimator`: `left` strata are left, the next one at `off`. -/
def strataLoop (wire : Bytes) : (left off : ℕ) → StrataEstimator → Checked StrataWireError StrataEstimator
  | 0, _, se => pure se
  | left + 1, off, se => do
      let rest ← Checked.sliceFrom wire off
      let t ← (checkedUnmarshalIBLT rest).mapError (.stratum (strataCount - (left + 1)))
      strataLoop wire left (off + (ibltWireHeaderLen + t.buckets.length * bucketWireLen))
        (se.setStratum (strataCount - (left + 1)) t)

def checkedUnmarshalStrataEstimator (wire : Bytes) : Checked StrataWireError StrataEstimator := do
  Checked.failIf (wire.length < strataWireHeaderLen) (.shortHeader wire.length)
  let magic ← Checked.slice wire 0 4
  Checked.failIf (getLE magic ≠ strataWireMagic) (.magicMismatch (getLE magic))
  let n ← Checked.index wire 4
  Checked.failIf (n.toNat ≠ strataCount) (.strataCount n.toNat)
  let seed ← Checked.slice wire 5 13
  let se ← checkedNewStrataEstimator (UInt64.ofNat (getLE seed))
  strataLoop wire strataCount strataWireHeaderLen se

def newStrataMemory : ℕ := strataEstimatorSize + strataCount * (ibltSize + strataIBLTBuckets * bucketSize)

theorem checkedNewStrataEstimator_eq (seed : Seed) :
    (checkedNewStrataEstimator seed : Checked ε StrataEstimator) =
      ⟨.value (StrataEstimator.new seed), newStrataMemory⟩ := by
  rw [checkedNewStrataEstimator, Checked.mapM_eq fun i _ => checkedNewIBLTWithSeed_eq (by decide) _ _]
  refine Checked.ext rfl ?_
  show strataEstimatorSize + ((List.range strataCount).length * _ + 0) = _
  rw [List.length_range, Nat.add_zero, newStrataMemory]

/-- A table takes at most four bytes of memory for each byte on the wire. -/
theorem IBLT.memory_le (t : IBLT) : t.memory ≤ 4 * t.wireLen := by
  rw [IBLT.memory, IBLT.wireLen, ibltSize, bucketSize, ibltWireHeaderLen, bucketWireLen]
  omega

/-- What a run of the loop comes to: an error, or the encodings of the tables it stores, from `off` on. -/
def LoopEnds (wire : Bytes) (left off : ℕ) (se : StrataEstimator) : Ending StrataWireError StrataEstimator → Prop
  | .value se' => ∃ ts : List IBLT, ts.length = left ∧ (∀ t ∈ ts, t.Accepted) ∧
      se'.strata = se.strata.take (strataCount - left) ++ ts ∧ se'.seed = se.seed ∧
      ∃ rest, wire.drop off = ts.flatMap marshalIBLT ++ rest
  | .error _ => True
  | .panic => False

theorem take_setStratum (se : StrataEstimator) {i : ℕ} (hi : i < strataCount) (t : IBLT) :
    (se.setStratum i t).strata.take (i + 1) = se.strata.take i ++ [t] := by
  have hlen : i < (se.strata.set i t).length := by
    rw [List.length_set, se.length_strata]
    exact hi
  show (se.strata.set i t).take (i + 1) = _
  rw [List.take_succ_eq_append_getElem hlen, List.getElem_set_self, List.take_set_of_le (Nat.le_refl i)]

/-- **The loop** stays within the input, and its memory within what it consumes. -/
theorem strataLoop_spec (wire : Bytes) (left off : ℕ) (se : StrataEstimator) (hleft : left ≤ strataCount)
    (hoff : off ≤ wire.length) :
    LoopEnds wire left off se (strataLoop wire left off se).ending ∧
      (strataLoop wire left off se).allocated ≤ 4 * (wire.length - off) := by
  induction left generalizing off se with
  | zero =>
    refine ⟨⟨[], rfl, fun t ht => absurd ht List.not_mem_nil, ?_, rfl, wire.drop off, rfl⟩, Nat.zero_le _⟩
    rw [Nat.sub_zero, List.append_nil, List.take_of_length_le (Nat.le_of_eq se.length_strata)]
  | succ left ih =>
    rw [strataLoop, Checked.sliceFrom_eq hoff, pure_bind, checkedUnmarshalIBLT_eq]
    cases hdecode : unmarshalIBLT (wire.drop off) with
    | error e => exact ⟨trivial, Nat.zero_le _⟩
    | ok t =>
      obtain ⟨hfits, henc⟩ := marshalIBLT_of_unmarshalIBLT hdecode
      rw [List.length_drop] at hfits
      have hindex : strataCount - (left + 1) + 1 = strataCount - left := by omega
      obtain ⟨hends, hmem⟩ := ih (off + t.wireLen) (se.setStratum (strataCount - (left + 1)) t)
        (Nat.le_of_succ_le hleft) (by omega)
      have hcost := t.memory_le
      show LoopEnds wire (left + 1) off se (strataLoop wire left (off + t.wireLen) _).ending ∧
        t.memory + (strataLoop wire left (off + t.wireLen) _).allocated ≤ _
      refine ⟨?_, by omega⟩
      cases hrun : (strataLoop wire left (off + t.wireLen) (se.setStratum (strataCount - (left + 1)) t)).ending with
      | error e => trivial
      | panic =>
        rw [hrun] at hends
        exact hends
      | value se' =>
        rw [hrun] at hends
        obtain ⟨ts, hts, haccepted, hstrata, hseed, rest, hrest⟩ := hends
        refine ⟨t :: ts, by rw [List.length_cons, hts], List.forall_mem_cons.mpr ⟨?_, haccepted⟩, ?_, hseed, rest, ?_⟩
        · exact accepted_iff.mp ⟨_, hdecode⟩
        · rw [hstrata, ← hindex, take_setStratum se (by omega), List.append_assoc, List.singleton_append]
        · rw [List.flatMap_cons, List.append_assoc, ← hrest, henc, ← List.drop_drop, List.take_append_drop]

/-- **The loop on the encodings of tables** returns them. -/
theorem strataLoop_marshal (before : Bytes) (ts : List IBLT) (rest : Bytes) (hts : ∀ t ∈ ts, t.Accepted)
    (se : StrataEstimator) (hleft : ts.length ≤ strataCount) :
    ∃ se', (strataLoop (before ++ (ts.flatMap marshalIBLT ++ rest)) ts.length before.length se).ending = .value se' ∧
      se'.strata = se.strata.take (strataCount - ts.length) ++ ts ∧ se'.seed = se.seed := by
  induction ts generalizing before se with
  | nil =>
    refine ⟨se, rfl, ?_, rfl⟩
    rw [List.length_nil, Nat.sub_zero, List.append_nil, List.take_of_length_le (Nat.le_of_eq se.length_strata)]
  | cons t ts ih =>
    have haccepted : t.Accepted := hts t List.mem_cons_self
    rw [List.length_cons] at hleft
    have hindex : strataCount - (ts.length + 1) + 1 = strataCount - ts.length := by omega
    have hdecode : unmarshalIBLT ((before ++ ((t :: ts).flatMap marshalIBLT ++ rest)).drop before.length) = .ok t := by
      rw [List.drop_left, List.flatMap_cons, List.append_assoc]
      exact unmarshalIBLT_marshalIBLT haccepted _
    obtain ⟨se', hrun, hstrata, hseed⟩ := ih (before ++ marshalIBLT t) (fun t' ht' => hts t' (List.mem_cons_of_mem _ ht'))
      (se.setStratum (strataCount - (ts.length + 1)) t) (by omega)
    rw [List.length_append, length_marshalIBLT, List.append_assoc, ← List.append_assoc (marshalIBLT t),
      ← List.flatMap_cons] at hrun
    refine ⟨se', ?_, ?_, hseed⟩
    · rw [List.length_cons, strataLoop, Checked.sliceFrom_eq (by rw [List.length_append]; omega), pure_bind,
        checkedUnmarshalIBLT_eq, hdecode]
      exact hrun
    · rw [hstrata, ← hindex, take_setStratum se (by omega), List.append_assoc, List.singleton_append,
        List.length_cons]

/-- A header the decoder of an estimator lets through. -/
structure StrataHeader (wire : Bytes) : Prop where
  length_le : strataWireHeaderLen ≤ wire.length
  magic : slice wire 0 4 = putLE 4 strataWireMagic
  count : slice wire 4 1 = [UInt8.ofNat strataCount]

def headerSeed (wire : Bytes) : Seed := UInt64.ofNat (getLE (slice wire 5 8))

/-- Behind its header an estimator is what the loop makes of it. -/
theorem checkedUnmarshalStrataEstimator_of_header (h : StrataHeader wire) :
    checkedUnmarshalStrataEstimator wire = ⟨.value (StrataEstimator.new (headerSeed wire)), newStrataMemory⟩ >>=
      strataLoop wire strataCount strataWireHeaderLen := by
  have hlen : 13 ≤ wire.length := h.length_le
  have hmagic : getLE (slice wire 0 4) = strataWireMagic := by
    rw [h.magic, getLE_putLE_of_lt (by decide)]
  have hcount : wire[4].toNat = strataCount := by
    have hone := h.count
    rw [slice_one (by omega), List.singleton_inj] at hone
    rw [hone]
    rfl
  rw [checkedUnmarshalStrataEstimator, Checked.failIf_bind_of_neg (Nat.not_lt.mpr h.length_le),
    Checked.slice_eq (by omega) (by omega), pure_bind, Checked.failIf_bind_of_neg (not_not.mpr hmagic),
    Checked.index_eq (by omega : 4 < wire.length), pure_bind, Checked.failIf_bind_of_neg (not_not.mpr hcount),
    Checked.slice_eq (by omega) (by omega), pure_bind, checkedNewStrataEstimator_eq]
  rfl

theorem checkedUnmarshalStrataEstimator_of_not_header (h : ¬ StrataHeader wire) :
    ∃ e, checkedUnmarshalStrataEstimator wire = Checked.fail e := by
  rw [checkedUnmarshalStrataEstimator]
  by_cases hhead : wire.length < strataWireHeaderLen
  · exact ⟨_, Checked.failIf_bind_of_pos hhead _ _⟩
  have hlen : 13 ≤ wire.length := Nat.not_lt.mp hhead
  rw [Checked.failIf_bind_of_neg hhead, Checked.slice_eq (by omega) (by omega), pure_bind]
  by_cases hmagic : getLE (slice wire 0 4) ≠ strataWireMagic
  · exact ⟨_, Checked.failIf_bind_of_pos hmagic _ _⟩
  rw [Checked.failIf_bind_of_neg hmagic, Checked.index_eq (by omega : 4 < wire.length), pure_bind]
  by_cases hcount : wire[4].toNat ≠ strataCount
  · exact ⟨_, Checked.failIf_bind_of_pos hcount _ _⟩
  refine absurd ⟨hlen, ?_, ?_⟩ h
  · rw [← of_not_not hmagic, putLE_getLE (slice_length (by omega))]
  · rw [slice_one (by omega), ← of_not_not hcount, UInt8.ofNat_toNat]

/-- The estimators the package can build: new ones, with keys inserted, and decoded ones. -/
inductive StrataEstimator.Built (R : Runtime) : StrataEstimator → Prop
  | new (seed : Seed) : Built R (.new seed)
  | insert {se : StrataEstimator} (h : Built R se) (key : UInt64) : Built R (se.insert R key)
  | unmarshal {wire : Bytes} {se : StrataEstimator}
      (h : (checkedUnmarshalStrataEstimator wire).ending = .value se) : Built R se

theorem checkedUnmarshalStrataEstimator_marshal (hse : ∀ t ∈ se.strata, t.Accepted)
    (rest : Bytes) : (checkedUnmarshalStrataEstimator (marshalStrataEstimator se ++ rest)).ending = .value se := by
  set wire := marshalStrataEstimator se ++ rest with hwire
  set head := putLE 4 strataWireMagic ++ ([UInt8.ofNat strataCount] ++ putLE 8 se.seed.toNat) with hhead
  have hheadLen : head.length = strataWireHeaderLen := by
    rw [hhead, List.length_append, List.length_append, putLE_length, putLE_length]
    rfl
  have hsplit : wire = head ++ (se.strata.flatMap marshalIBLT ++ rest) := by
    simp only [hwire, hhead, marshalStrataEstimator, List.append_assoc]
  have hheader : StrataHeader wire := by
    refine ⟨by rw [hsplit, List.length_append, hheadLen]; omega, ?_, ?_⟩
    · rw [hsplit, hhead, List.append_assoc, slice_head (putLE_length _ _)]
    · rw [hsplit, hhead, List.append_assoc, slice_skip (by rw [putLE_length]), putLE_length, List.append_assoc]
      rfl
  have hseed : headerSeed wire = se.seed := by
    have hfield : slice wire 5 8 = putLE 8 se.seed.toNat := by
      rw [hsplit, hhead, List.append_assoc, slice_skip (by rw [putLE_length]; decide), putLE_length, List.append_assoc,
        slice_skip (by decide)]
      exact slice_head (putLE_length _ _) _
    rw [headerSeed, hfield, getLE_putLE_of_lt (toNat_lt_256_pow_8 _), UInt64.ofNat_toNat]
  obtain ⟨se', hrun, hstrata, hseed'⟩ := strataLoop_marshal head se.strata rest hse (StrataEstimator.new se.seed)
    (Nat.le_of_eq se.length_strata)
  rw [checkedUnmarshalStrataEstimator_of_header hheader, hseed, hsplit, Checked.value_bind]
  rw [se.length_strata, hheadLen] at hrun
  rw [se.length_strata, Nat.sub_self, List.take_zero, List.nil_append] at hstrata
  have hback : se' = se := StrataEstimator.ext hstrata hseed'
  rw [hback] at hrun
  dsimp only
  exact hrun

/-- What the decoder of an estimator accepts, and what it allocates. -/
theorem checkedUnmarshalStrataEstimator_spec (wire : Bytes) :
    ((∃ e, (checkedUnmarshalStrataEstimator wire).ending = .error e) ∨
      ∃ se rest, (checkedUnmarshalStrataEstimator wire).ending = .value se ∧ (∀ t ∈ se.strata, t.Accepted) ∧
        wire = marshalStrataEstimator se ++ rest) ∧
      (checkedUnmarshalStrataEstimator wire).allocated ≤ 4904 * wire.length := by
  by_cases hheader : StrataHeader wire
  · have hlen : 13 ≤ wire.length := hheader.length_le
    have hmem : newStrataMemory = 4904 * 13 := by decide
    obtain ⟨hends, hcost⟩ := strataLoop_spec wire strataCount strataWireHeaderLen
      (StrataEstimator.new (headerSeed wire)) (Nat.le_refl _) hheader.length_le
    rw [checkedUnmarshalStrataEstimator_of_header hheader, Checked.value_bind]
    dsimp only
    constructor
    · cases hrun : (strataLoop wire strataCount strataWireHeaderLen
          (StrataEstimator.new (headerSeed wire))).ending with
      | error e => exact .inl ⟨e, rfl⟩
      | panic =>
        rw [hrun] at hends
        exact hends.elim
      | value se =>
        rw [hrun] at hends
        obtain ⟨ts, -, haccepted, hstrata, hseed, rest, hrest⟩ := hends
        rw [Nat.sub_self, List.take_zero, List.nil_append] at hstrata
        refine .inr ⟨se, rest, rfl, hstrata ▸ haccepted, ?_⟩
        have hseedField : putLE 8 se.seed.toNat = slice wire 5 8 := by
          have hfield : (slice wire 5 8).length = 8 := slice_length (by omega)
          rw [hseed]
          show putLE 8 (UInt64.ofNat (getLE (slice wire 5 8))).toNat = _
          rw [UInt64.toNat_ofNat_of_lt' (getLE_lt hfield), putLE_getLE hfield]
        rw [marshalStrataEstimator, ← hheader.magic, ← hheader.count, hseedField, hstrata]
        show wire = slice wire 0 4 ++ (slice wire (0 + 4) 1 ++ (slice wire (4 + 1) 8 ++ _)) ++ rest
        rw [List.append_assoc, List.append_assoc, List.append_assoc, ← hrest, ← List.append_assoc (slice wire (0 + 4) 1),
          slice_append, ← List.append_assoc, slice_append]
        exact (List.take_append_drop 13 wire).symm
    · have hheadLen : strataWireHeaderLen = 13 := rfl
      omega
  · obtain ⟨e, he⟩ := checkedUnmarshalStrataEstimator_of_not_header hheader
    rw [he]
    exact ⟨.inl ⟨e, rfl⟩, Nat.zero_le _⟩

theorem IBLT.Accepted.insert {R : Runtime} {t : IBLT} (h : t.Accepted) (key : UInt64) : (t.insert R key).Accepted := by
  refine ⟨h.k_pos, h.k_le, ?_⟩
  show ((t.getHashes R key).foldl _ t.buckets).length ≤ maxIBLTBuckets
  rw [IBLT.length_foldl_modify]
  exact h.length_le

/-- The tables of every estimator are within the bounds of the decoder. -/
theorem StrataEstimator.Built.accepted {R : Runtime} (h : Built R se) : ∀ t ∈ se.strata, t.Accepted := by
  induction h with
  | new seed =>
    intro t ht
    rw [List.eq_of_mem_replicate ht]
    have hk : 0 < strataK ∧ strataK ≤ ibltMaxK := by decide
    exact ⟨hk.1, hk.2, (Nat.le_of_eq List.length_replicate).trans (by decide)⟩
  | insert h key ih =>
    intro t ht
    obtain ⟨i, hi, rfl⟩ := List.mem_iff_getElem.mp ht
    simp only [StrataEstimator.insert, List.getElem_modify]
    split
    · exact (ih _ (List.getElem_mem _)).insert key
    · exact ih _ (List.getElem_mem _)
  | @unmarshal wire se h =>
    rcases (checkedUnmarshalStrataEstimator_spec wire).1 with ⟨e, he⟩ | ⟨se', rest, hse', haccepted, -⟩
    · rw [he] at h
      cases h
    · obtain rfl : se' = se := Ending.value.inj (hse'.symm.trans h)
      exact haccepted

/-- **The wire codec of sketches.**  Every table with one to eight hashes and at most 699050 buckets, and every
estimator, is read back from its encoding, whatever follows.  On every byte string the decoders return an error or a
sketch whose encoding the byte string begins with; they do not panic, and the memory they allocate is at most a
constant times the length of the input. -/
theorem sketch_wire_codec (R : Runtime) :
    (∀ t : IBLT, 1 ≤ t.k → t.k ≤ 8 → t.buckets.length ≤ 699050 → ∀ rest,
      (checkedUnmarshalIBLT (marshalIBLT t ++ rest)).ending = .value t) ∧
    (∀ se, StrataEstimator.Built R se → ∀ rest,
      (checkedUnmarshalStrataEstimator (marshalStrataEstimator se ++ rest)).ending = .value se) ∧
    (∀ wire, (∃ e, (checkedUnmarshalIBLT wire).ending = .error e) ∨
      ∃ t, (checkedUnmarshalIBLT wire).ending = .value t ∧ marshalIBLT t <+: wire) ∧
    (∀ wire, (∃ e, (checkedUnmarshalStrataEstimator wire).ending = .error e) ∨
      ∃ se, (checkedUnmarshalStrataEstimator wire).ending = .value se ∧ marshalStrataEstimator se <+: wire) ∧
    ∃ C, ∀ wire, (checkedUnmarshalIBLT wire).allocated ≤ C * wire.length ∧
      (checkedUnmarshalStrataEstimator wire).allocated ≤ C * wire.length := by
  refine ⟨fun t hpos hle hlen rest => ?_, fun se hse rest => checkedUnmarshalStrataEstimator_marshal hse.accepted rest,
    fun wire => ?_, fun wire => ?_, 4904, fun wire => ⟨?_, (checkedUnmarshalStrataEstimator_spec wire).2⟩⟩
  · rw [checkedUnmarshalIBLT_eq, unmarshalIBLT_marshalIBLT ⟨hpos, hle, hlen⟩]
    rfl
  · rw [checkedUnmarshalIBLT_eq]
    cases hdecode : unmarshalIBLT wire with
    | error e => exact .inl ⟨e, rfl⟩
    | ok t =>
      obtain ⟨-, henc⟩ := marshalIBLT_of_unmarshalIBLT hdecode
      exact .inr ⟨t, rfl, henc ▸ List.take_prefix _ _⟩
  · rcases (checkedUnmarshalStrataEstimator_spec wire).1 with herror | ⟨se, rest, hse, -, hwire⟩
    · exact .inl herror
    · exact .inr ⟨se, hse, rest, hwire.symm⟩
  · rw [checkedUnmarshalIBLT_eq]
    cases hdecode : unmarshalIBLT wire with
    | error e => exact Nat.zero_le _
    | ok t =>
      obtain ⟨hfits, -⟩ := marshalIBLT_of_unmarshalIBLT hdecode
      have hmem := t.memory_le
      show t.memory ≤ 4904 * wire.length
      omega

/-- A table of two buckets and three hashes, and an estimator of one key. -/
theorem sketch_wire_codec_on_small_sketches :
    (checkedUnmarshalIBLT (marshalIBLT ⟨[⟨1, 5, 9⟩, ⟨-1, 6, 0⟩], 3, 7⟩ ++ [1, 2])).ending =
      .value ⟨[⟨1, 5, 9⟩, ⟨-1, 6, 0⟩], 3, 7⟩ ∧
    (checkedUnmarshalStrataEstimator
      (marshalStrataEstimator ((StrataEstimator.new 7).insert Runtime.sample 12) ++ [])).ending =
        .value ((StrataEstimator.new 7).insert Runtime.sample 12) := by
  obtain ⟨htable, hestimator, -⟩ := sketch_wire_codec Runtime.sample
  exact ⟨htable _ (by decide) (by decide) (by decide) _, hestimator _ (.insert (.new 7) 12) _⟩

end Sovereign.Sync

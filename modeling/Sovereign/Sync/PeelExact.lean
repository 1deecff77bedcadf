import Sovereign.Sync.PeelHalting

/-!
# What a peel lists

`Peel` on the difference of two sketches, for every number of buckets, every number of hashes and every
seed.

* `peelStep` is one turn of the loop, and `peel_eq_iterate` says that `peel` is its iteration until the
  queue is empty.
* `table_iterate` — at every step, on every table, what is left is the table at the start without the
  local keys and with the remote keys listed so far.
* `Residual` — on a difference whose pure buckets hold one key (`NoFalsePure`), what is left is the
  difference of the keys not listed yet, so every turn lists a key of the side it is on, once.  A table
  of zeros is the difference of nothing, so a peel that succeeds has listed all keys.
* `noFalsePure_of_checksumsApart` — a bucket with two or more keys is not taken for a pure one if the
  exclusive or of their checksums is not the checksum of their exclusive or.
-/

namespace Sovereign.Sync

open Lib

namespace IBLT

variable (R : Runtime) {i : ℕ} {key : UInt64} {keys : List UInt64}

/-! ### The loop step by step -/

structure PeelState where
  queue : List ℕ
  table : IBLT
  localHas : List UInt64
  remoteHas : List UInt64

def peelStart (t : IBLT) : PeelState := ⟨(List.range t.buckets.length).filter fun i => t.isPure R i, t, [], []⟩

/-- One turn of the loop; with an empty queue nothing happens. -/
def peelStep (s : PeelState) : PeelState :=
  match s.queue with
  | [] => s
  | idx :: queue =>
    let b := s.table.bucket idx
    if !s.table.isPure R idx then { s with queue := queue }
    else if 0 < b.count then
      let (t, queue) := s.table.unpeel R queue b.keySum true
      ⟨queue, t, s.localHas ++ [b.keySum], s.remoteHas⟩
    else
      let (t, queue) := s.table.unpeel R queue b.keySum false
      ⟨queue, t, s.localHas, s.remoteHas ++ [b.keySum]⟩

/-- What the loop returns: nothing, if candidates are left. -/
def PeelState.result (s : PeelState) : Option (IBLT × List UInt64 × List UInt64) :=
  if s.queue = [] then some (s.table, s.localHas, s.remoteHas) else none

section
variable {R}

variable {s : PeelState} {t : IBLT}

theorem peelStep_of_nil (h : s.queue = []) : peelStep R s = s := by
  rw [peelStep, h]

theorem iterate_peelStep_of_nil (h : s.queue = []) (j : ℕ) : (peelStep R)^[j] s = s :=
  Function.iterate_fixed (peelStep_of_nil h) j

/-- **The loop is the iteration of its turn.** -/
theorem peelLoop_eq_iterate (fuel : ℕ) (s : PeelState) :
    peelLoop R fuel s.queue s.table s.localHas s.remoteHas = ((peelStep R)^[fuel] s).result := by
  induction fuel generalizing s with
  | zero =>
    obtain ⟨queue, t, localHas, remoteHas⟩ := s
    cases queue with
    | nil => rfl
    | cons idx queue => rfl
  | succ fuel ih =>
    obtain ⟨queue, t, localHas, remoteHas⟩ := s
    cases queue with
    | nil =>
      rw [iterate_peelStep_of_nil rfl]
      rfl
    | cons idx queue =>
      rw [Function.iterate_succ_apply, ← ih, peelLoop, peelStep]
      dsimp only
      by_cases hpure : t.isPure R idx = true
      · have hcount : isPureCount (t.bucket idx).count = true := by
          rw [isPure, decide_eq_true_iff] at hpure
          exact hpure.1
        simp only [hcount, hpure, Bool.not_true, Bool.false_eq_true, if_false]
        split
        · rfl
        · rfl
      · rw [Bool.not_eq_true] at hpure
        simp only [hpure, Bool.not_false, if_true, ite_self]

theorem peel_eq_iterate (fuel : ℕ) (t : IBLT) :
    t.peel R fuel = (((peelStep R)^[fuel] (peelStart R t)).result).map fun out =>
      (out.2.1, out.2.2, out.1.buckets.any (· ≠ 0)) := by
  have hloop := peelLoop_eq_iterate (R := R) fuel (peelStart R t)
  rw [peel, ← hloop]
  cases h : peelLoop R fuel (peelStart R t).queue (peelStart R t).table (peelStart R t).localHas
      (peelStart R t).remoteHas with
  | none =>
    rw [peelStart] at h
    rw [h]
    rfl
  | some out =>
    rw [peelStart] at h
    rw [h]
    rfl

/-- What a peel returns, from the last state of the loop. -/
theorem peel_eq_some_iff {fuel : ℕ} {localHas remoteHas : List UInt64} {incomplete : Bool} :
    t.peel R fuel = some (localHas, remoteHas, incomplete) ↔
      ((peelStep R)^[fuel] (peelStart R t)).queue = [] ∧
        ((peelStep R)^[fuel] (peelStart R t)).localHas = localHas ∧
        ((peelStep R)^[fuel] (peelStart R t)).remoteHas = remoteHas ∧
        ((peelStep R)^[fuel] (peelStart R t)).table.buckets.any (· ≠ 0) = incomplete := by
  rw [peel_eq_iterate, PeelState.result]
  split
  · next hnil => simp [hnil]
  · next hne => simp [hne]

theorem halts_iff : t.Halts R ↔ ∃ fuel, ((peelStep R)^[fuel] (peelStart R t)).queue = [] := by
  constructor
  · rintro ⟨fuel, ⟨localHas, remoteHas, incomplete⟩, hpeel⟩
    exact ⟨fuel, (peel_eq_some_iff.mp hpeel).1⟩
  · rintro ⟨fuel, hnil⟩
    exact ⟨fuel, _, peel_eq_some_iff.mpr ⟨hnil, rfl, rfl, rfl⟩⟩

theorem peelStep_cases (s : PeelState) :
    s.queue = [] ∧ peelStep R s = s ∨
    ∃ idx queue, s.queue = idx :: queue ∧
      (s.table.isPure R idx = false ∧ peelStep R s = { s with queue := queue } ∨
        s.table.isPure R idx = true ∧ 0 < (s.table.bucket idx).count ∧
          peelStep R s = ⟨(s.table.unpeel R queue (s.table.bucket idx).keySum true).2,
            (s.table.unpeel R queue (s.table.bucket idx).keySum true).1,
            s.localHas ++ [(s.table.bucket idx).keySum], s.remoteHas⟩ ∨
        s.table.isPure R idx = true ∧ ¬ 0 < (s.table.bucket idx).count ∧
          peelStep R s = ⟨(s.table.unpeel R queue (s.table.bucket idx).keySum false).2,
            (s.table.unpeel R queue (s.table.bucket idx).keySum false).1,
            s.localHas, s.remoteHas ++ [(s.table.bucket idx).keySum]⟩) := by
  cases hqueue : s.queue with
  | nil => exact .inl ⟨rfl, peelStep_of_nil hqueue⟩
  | cons idx queue =>
    refine .inr ⟨idx, queue, rfl, ?_⟩
    rw [peelStep, hqueue]
    dsimp only
    cases hpure : s.table.isPure R idx with
    | false => exact .inl ⟨rfl, rfl⟩
    | true =>
      simp only [Bool.not_true, Bool.false_eq_true, if_false]
      by_cases hpos : 0 < (s.table.bucket idx).count
      · exact .inr (.inl ⟨trivial, hpos, if_pos hpos⟩)
      · exact .inr (.inr ⟨trivial, hpos, if_neg hpos⟩)

/-! ### The table at every step -/

theorem tally_append (t : IBLT) (keys keys' : List UInt64) (i : ℕ) :
    tally R t (keys ++ keys') i = tally R t keys i + tally R t keys' i := by
  rw [tally, List.map_append, List.sum_append]
  rfl

theorem tally_singleton (t : IBLT) (key : UInt64) (i : ℕ) :
    tally R t [key] i = (t.getHashes R key).count i • t.unit R key := by
  rw [tally, List.map_singleton, List.sum_singleton]

/-- The table of a state with the listed keys put back. -/
def PeelState.restored (R : Runtime) (base : IBLT) (s : PeelState) (i : ℕ) : Bucket :=
  s.table.bucket i + tally R base s.localHas i - tally R base s.remoteHas i

/-- A turn takes out of the table what it lists. -/
theorem restored_peelStep {base : IBLT} (h : SameShape s.table base) :
    SameShape (peelStep R s).table base ∧
      ∀ i < base.buckets.length, (peelStep R s).restored R base i = s.restored R base i := by
  have hwrite : ∀ queue key positive, ∀ i < base.buckets.length,
      (s.table.unpeel R queue key positive).1.bucket i =
        s.table.bucket i + if positive then -tally R base [key] i else tally R base [key] i := by
    intro queue key positive i hi
    rw [(unpeel_buckets s.table queue key positive).2.2 i (h.length ▸ hi), tally_singleton, h.getHashes, h.unit]
    cases positive with
    | true => rw [if_pos rfl, if_pos rfl, smul_neg]
    | false => rfl
  have hshape : ∀ queue key positive, SameShape (s.table.unpeel R queue key positive).1 base :=
    fun queue key positive => (unpeel_buckets s.table queue key positive).1.trans h
  rcases peelStep_cases (R := R) s with ⟨-, hstep⟩ | ⟨idx, queue, -, ⟨-, hstep⟩ | ⟨-, -, hstep⟩ | ⟨-, -, hstep⟩⟩
  · rw [hstep]
    exact ⟨h, fun _ _ => rfl⟩
  · rw [hstep]
    exact ⟨h, fun _ _ => rfl⟩
  · rw [hstep]
    refine ⟨hshape _ _ _, fun i hi => ?_⟩
    rw [PeelState.restored, PeelState.restored, hwrite _ _ _ i hi, tally_append, if_pos rfl]
    abel
  · rw [hstep]
    refine ⟨hshape _ _ _, fun i hi => ?_⟩
    rw [PeelState.restored, PeelState.restored, hwrite _ _ _ i hi, tally_append, if_neg Bool.false_ne_true]
    abel

theorem restored_iterate {base : IBLT} (h : SameShape s.table base) (j : ℕ) :
    SameShape ((peelStep R)^[j] s).table base ∧
      ∀ i < base.buckets.length, ((peelStep R)^[j] s).restored R base i = s.restored R base i := by
  induction j with
  | zero => exact ⟨h, fun _ _ => rfl⟩
  | succ j ih =>
    rw [Function.iterate_succ_apply']
    obtain ⟨hshape, hrest⟩ := restored_peelStep (R := R) ih.1
    exact ⟨hshape, fun i hi => (hrest i hi).trans (ih.2 i hi)⟩

theorem bucket_of_ge (h : t.buckets.length ≤ i) : t.bucket i = 0 := by
  rw [bucket, List.getD_eq_getElem?_getD, List.getElem?_eq_none h]
  rfl

/-- **At every step** the table is the one at the start, without the sketch of the local keys and with that of
the remote keys listed so far. -/
theorem table_iterate {n k : ℕ} {seed : Seed} (h : SameShape t (blank n k seed)) (j i : ℕ) :
    ((peelStep R)^[j] (peelStart R t)).table.bucket i = t.bucket i -
      (sketchOf R n k seed ((peelStep R)^[j] (peelStart R t)).localHas).bucket i +
      (sketchOf R n k seed ((peelStep R)^[j] (peelStart R t)).remoteHas).bucket i := by
  have hn : (blank n k seed).buckets.length = n := List.length_replicate
  obtain ⟨hshape, hrest⟩ := restored_iterate (R := R) (s := peelStart R t) h j
  obtain ⟨hlocal, hlocalBucket⟩ :=
    sketchOf_buckets (R := R) n k seed ((peelStep R)^[j] (peelStart R t)).localHas
  obtain ⟨hremote, hremoteBucket⟩ :=
    sketchOf_buckets (R := R) n k seed ((peelStep R)^[j] (peelStart R t)).remoteHas
  by_cases hi : i < n
  · have heq := hrest i (hn.symm ▸ hi)
    have hstart : (peelStart R t).restored R (blank n k seed) i = t.bucket i := by
      rw [PeelState.restored]
      exact (sub_zero _).trans (add_zero _)
    rw [hlocalBucket i hi, hremoteBucket i hi, ← hstart, ← heq, PeelState.restored]
    abel
  · have hge : n ≤ i := Nat.not_lt.mp hi
    rw [bucket_of_ge (by rw [hshape.length, hn]; exact hge), bucket_of_ge (by rw [h.length, hn]; exact hge),
      bucket_of_ge (by rw [hlocal.length, hn]; exact hge), bucket_of_ge (by rw [hremote.length, hn]; exact hge)]
    rfl

/-! ### The difference of two sketches -/

variable (R) in
/-- A table with that many buckets and hashes as a linear sketch of 64-bit keys. -/
def sketchAt (n : ℕ) {k : ℕ} (hk : 0 < k) (seed : Seed) : Sketch UInt64 Bucket where
  unit := (blank n k seed).unit R
  targets := (blank n k seed).getHashes R
  targets_ne_nil := fun key h => by
    have hlen := congrArg List.length h
    rw [getHashes, List.length_map, List.length_range, List.length_nil] at hlen
    exact absurd hlen (Nat.ne_of_gt hk)
  accepts b := isPureCount b.count ∧ b.hashSum = (blank n k seed).hashKey R b.keySum
  accepts_unit := fun _ => ⟨rfl, rfl⟩
  accepts_neg_unit := fun _ => ⟨rfl, rfl⟩
  unit_injective := fun _ _ h => congrArg Bucket.keySum h
  unit_ne_neg_unit := fun _ _ h => absurd (congrArg Bucket.count h) one_ne_neg_one

variable (R) in
/-- The buckets of each key are distinct. -/
def DistinctTargets (n k : ℕ) (seed : Seed) (keys : List UInt64) : Prop :=
  ∀ key ∈ keys, ((blank n k seed).getHashes R key).Nodup

section
variable {n k : ℕ} {hk : 0 < k} {seed : Seed}

theorem count_smul_unit (h : ((blank n k seed).getHashes R key).Nodup) (i : ℕ) :
    ((blank n k seed).getHashes R key).count i • (blank n k seed).unit R key = (sketchAt R n hk seed).share key i := by
  rw [h.count, Sketch.share]
  show _ = if i ∈ (blank n k seed).getHashes R key then (blank n k seed).unit R key else 0
  split
  · exact one_nsmul _
  · exact zero_nsmul _

/-- A key with distinct buckets adds its share to each. -/
theorem tally_eq_load (h : DistinctTargets R n k seed keys) (i : ℕ) :
    tally R (blank n k seed) keys i = (sketchAt R n hk seed).load keys i := by
  rw [tally, Sketch.load]
  congr 1
  exact List.map_congr_left fun key hkey => count_smul_unit (h key hkey) i

theorem isPure_iff_accepts {t : IBLT} (h : SameShape t (blank n k seed)) (idx : ℕ) :
    t.isPure R idx = true ↔ (sketchAt R n hk seed).accepts (t.bucket idx) := by
  rw [isPure, decide_eq_true_iff, hashKey, h.seed]
  rfl

/-- The buckets of a key are in the table; the number of buckets is an `int`. -/
theorem lt_of_mem_blank (hn : 0 < n) (hmax : n < 2 ^ 63)
    (hi : i ∈ (blank n k seed).getHashes R key) : i < n := by
  have hlen : (blank n k seed).buckets.length = n := List.length_replicate
  obtain ⟨m, -, rfl⟩ := List.mem_map.mp hi
  rw [UInt64.toNat_mod, hlen, UInt64.toNat_ofNat_of_lt' (by simpa using hmax.trans (by decide))]
  exact Nat.mod_lt _ hn

variable (R hk) in
/-- What is left of a difference: its table is the difference of the keys not listed yet. -/
structure Residual (n : ℕ) (seed : Seed) (A₀ B₀ : List UInt64) (s : PeelState) (A B : List UInt64) : Prop where
  shape : SameShape s.table (blank n k seed)
  residue : ∀ i < n, s.table.bucket i = (sketchAt R n hk seed).residue A B i
  part : Sketch.PartOf A₀ B₀ A B
  localHas : (s.localHas ++ A).Perm A₀
  remoteHas : (s.remoteHas ++ B).Perm B₀

variable {A₀ B₀ A B : List UInt64} {s : PeelState}

section
variable (h : Residual R hk n seed A₀ B₀ s A B)
include h

theorem Residual.lt_of_isPure {idx : ℕ} (hidx : s.table.isPure R idx = true) :
    idx < n := by
  rw [← h.shape.length_blank]
  exact IBLT.lt_of_isPure hidx

/-- Taking a key of the difference out of its buckets. -/
theorem Residual.bucket_unpeel
    (hkey : ((blank n k seed).getHashes R key).Nodup) (queue : List ℕ) (positive : Bool) (hi : i < n) :
    (s.table.unpeel R queue key positive).1.bucket i = (sketchAt R n hk seed).residue A B i +
      if positive then -(sketchAt R n hk seed).share key i else (sketchAt R n hk seed).share key i := by
  rw [(unpeel_buckets s.table queue key positive).2.2 i (by rwa [h.shape.length_blank]), h.residue i hi, h.shape.getHashes,
    h.shape.unit]
  cases positive with
  | true => rw [if_pos rfl, if_pos rfl, smul_neg, count_smul_unit hkey]
  | false => rw [if_neg Bool.false_ne_true, if_neg Bool.false_ne_true, count_smul_unit hkey]

section
variable (hpure : (sketchAt R n hk seed).NoFalsePure A₀ B₀) (hdistinct : DistinctTargets R n k seed (A₀ ++ B₀))

include hpure hdistinct

/-- **A turn on a pure bucket** lists a key of the difference that is in the bucket, on its side, and leaves
the difference without it. -/
theorem Residual.step {idx : ℕ}
    {queue : List ℕ} (hqueue : s.queue = idx :: queue) (hidx : s.table.isPure R idx = true) :
    ∃ key positive, idx ∈ (blank n k seed).getHashes R key ∧ key ∈ (if positive then A else B) ∧
      (peelStep R s).queue = (s.table.unpeel R queue key positive).2 ∧
      (peelStep R s).table = (s.table.unpeel R queue key positive).1 ∧
      Residual R hk n seed A₀ B₀ (peelStep R s) (if positive then A.erase key else A)
        (if positive then B else B.erase key) := by
  have hlt := h.lt_of_isPure hidx
  have hacc : (sketchAt R n hk seed).accepts (s.table.bucket idx) := (isPure_iff_accepts h.shape idx).mp hidx
  rw [h.residue idx hlt] at hacc
  rcases Sketch.accepted_cases hpure h.part hacc with ⟨x, hx, htarget, hres⟩ | ⟨x, hx, htarget, hres⟩
  · have hbucket : s.table.bucket idx = (sketchAt R n hk seed).unit x := (h.residue idx hlt).trans hres
    have hkey : (s.table.bucket idx).keySum = x := congrArg Bucket.keySum hbucket
    have hcount : (s.table.bucket idx).count = 1 := congrArg Bucket.count hbucket
    have hpos : 0 < (s.table.bucket idx).count := by
      rw [hcount]
      decide
    have hnd := hdistinct x (List.mem_append_left _ (h.part.left hx))
    have hstep : peelStep R s = ⟨(s.table.unpeel R queue x true).2, (s.table.unpeel R queue x true).1,
        s.localHas ++ [x], s.remoteHas⟩ := by
      rw [peelStep, hqueue]
      dsimp only
      rw [hidx, if_neg (by simp), if_pos hpos, hkey]
    refine ⟨x, true, htarget, hx, by rw [hstep], by rw [hstep], ?_⟩
    rw [hstep, if_pos rfl, if_pos rfl]
    refine ⟨(unpeel_buckets s.table queue x true).1.trans h.shape, fun i hi => ?_, h.part.erase_left x, ?_, h.remoteHas⟩
    · rw [h.bucket_unpeel hnd queue true hi, if_pos rfl, Sketch.residue_erase_left hx, sub_eq_add_neg]
    · refine List.Perm.trans ?_ h.localHas
      rw [List.append_assoc]
      exact (List.perm_cons_erase hx).symm.append_left _
  · have hbucket : s.table.bucket idx = -(sketchAt R n hk seed).unit x := (h.residue idx hlt).trans hres
    have hkey : (s.table.bucket idx).keySum = x := congrArg Bucket.keySum hbucket
    have hcount : (s.table.bucket idx).count = -1 := congrArg Bucket.count hbucket
    have hneg : ¬ 0 < (s.table.bucket idx).count := by
      rw [hcount]
      decide
    have hnd := hdistinct x (List.mem_append_right _ (h.part.right hx))
    have hstep : peelStep R s = ⟨(s.table.unpeel R queue x false).2, (s.table.unpeel R queue x false).1,
        s.localHas, s.remoteHas ++ [x]⟩ := by
      rw [peelStep, hqueue]
      dsimp only
      rw [hidx, if_neg (by simp), if_neg hneg, hkey]
    refine ⟨x, false, htarget, hx, by rw [hstep], by rw [hstep], ?_⟩
    rw [hstep, if_neg Bool.false_ne_true, if_neg Bool.false_ne_true]
    refine ⟨(unpeel_buckets s.table queue x false).1.trans h.shape, fun i hi => ?_, h.part.erase_right x, h.localHas, ?_⟩
    · rw [h.bucket_unpeel hnd queue false hi, if_neg Bool.false_ne_true, Sketch.residue_erase_right hx]
    · refine List.Perm.trans ?_ h.remoteHas
      rw [List.append_assoc]
      exact (List.perm_cons_erase hx).symm.append_left _

/-- Every turn keeps the invariant and uses up a candidate or a key. -/
theorem Residual.next :
    ∃ A' B', Residual R hk n seed A₀ B₀ (peelStep R s) A' B' ∧
      (s.queue ≠ [] → (peelStep R s).queue.length + k * (A'.length + B'.length) <
        s.queue.length + k * (A.length + B.length)) := by
  rcases peelStep_cases (R := R) s with ⟨hnil, hstep⟩ | ⟨idx, queue, hqueue, ⟨hidx, hstep⟩ | hidx⟩
  · rw [hstep]
    exact ⟨A, B, h, fun hne => absurd hnil hne⟩
  · rw [hstep, hqueue]
    refine ⟨A, B, ⟨h.shape, h.residue, h.part, h.localHas, h.remoteHas⟩, fun _ => ?_⟩
    rw [List.length_cons]
    dsimp only
    omega
  · have hpureidx : s.table.isPure R idx = true := by
      rcases hidx with hidx | hidx
      · exact hidx.1
      · exact hidx.1
    obtain ⟨key, positive, -, hmem, hq, -, hnext⟩ := h.step hpure hdistinct hqueue hpureidx
    refine ⟨_, _, hnext, fun _ => ?_⟩
    have hlen := (unpeel_buckets (R := R) s.table queue key positive).2.1
    have hshape : s.table.k = k := h.shape.k
    rw [hq, hqueue, List.length_cons]
    cases positive with
    | true =>
      rw [if_pos rfl] at hmem
      rw [if_pos rfl, if_pos rfl, List.length_erase_of_mem hmem]
      have hpos := List.length_pos_of_mem hmem
      have hmul : k * (A.length + B.length) = k * (A.length - 1 + B.length) + k := by
        rw [← Nat.mul_succ]
        congr 1
        omega
      omega
    | false =>
      rw [if_neg Bool.false_ne_true] at hmem
      rw [if_neg Bool.false_ne_true, if_neg Bool.false_ne_true, List.length_erase_of_mem hmem]
      have hpos := List.length_pos_of_mem hmem
      have hmul : k * (A.length + B.length) = k * (A.length + (B.length - 1)) + k := by
        rw [← Nat.mul_succ]
        congr 1
        omega
      omega

theorem Residual.iterate (j : ℕ) :
    ∃ A' B', Residual R hk n seed A₀ B₀ ((peelStep R)^[j] s) A' B' := by
  induction j with
  | zero => exact ⟨A, B, h⟩
  | succ j ih =>
    obtain ⟨A', B', h'⟩ := ih
    obtain ⟨A'', B'', h'', -⟩ := h'.next hpure hdistinct
    rw [Function.iterate_succ_apply']
    exact ⟨A'', B'', h''⟩

/-- **The loop ends** on such a difference. -/
theorem Residual.ends :
    ∃ j, ((peelStep R)^[j] s).queue = [] := by
  induction hbudget : s.queue.length + k * (A.length + B.length) using Nat.strong_induction_on
    generalizing s A B with
  | _ budget ih =>
    by_cases hnil : s.queue = []
    · exact ⟨0, hnil⟩
    · obtain ⟨A', B', h', hless⟩ := h.next hpure hdistinct
      obtain ⟨j, hj⟩ := ih _ (hbudget ▸ hless hnil) h' rfl
      exact ⟨j + 1, hj⟩

end

/-- **A table of zeros has been listed completely.** -/
theorem Residual.complete (hpure : (sketchAt R n hk seed).NoFalsePure A₀ B₀) (hn : 0 < n) (hmax : n < 2 ^ 63)
    (hzero : s.table.buckets.any (· ≠ 0) = false) :
    s.localHas.Perm A₀ ∧ s.remoteHas.Perm B₀ := by
  have hbucket : ∀ i, s.table.bucket i = 0 := by
    intro i
    rw [bucket, List.getD_eq_getElem?_getD]
    cases hget : s.table.buckets[i]? with
    | none => rfl
    | some b =>
      have hb := List.any_eq_false.mp hzero b (List.mem_of_getElem? hget)
      simpa using hb
  have hnone : ∀ key ∈ A ++ B, False := by
    intro key hkey
    obtain ⟨i, hi⟩ := List.exists_mem_of_ne_nil _ ((sketchAt R n hk seed).targets_ne_nil key)
    have hlt : i < n := lt_of_mem_blank hn hmax hi
    exact Sketch.no_occupant_of_zero hpure h.part ((h.residue i hlt).symm.trans (hbucket i)) key hkey hi
  have hnil := List.append_eq_nil_iff.mp (List.eq_nil_iff_forall_not_mem.mpr hnone)
  have hlocal := h.localHas
  have hremote := h.remoteHas
  rw [hnil.1, List.append_nil] at hlocal
  rw [hnil.2, List.append_nil] at hremote
  exact ⟨hlocal, hremote⟩

end

theorem mem_filter_notMem {X Y : List UInt64} : key ∈ X.filter (· ∉ Y) ↔ key ∈ X ∧ key ∉ Y := by
  rw [List.mem_filter, decide_eq_true_iff]

theorem DistinctTargets.append_mono (h : DistinctTargets R n k seed (A₀ ++ B₀)) (hA : ∀ x ∈ A, x ∈ A₀)
    (hB : ∀ x ∈ B, x ∈ B₀) : DistinctTargets R n k seed (A ++ B) := by
  intro key hkey
  rcases List.mem_append.mp hkey with hkey | hkey
  · exact h key (List.mem_append_left _ (hA key hkey))
  · exact h key (List.mem_append_right _ (hB key hkey))

theorem distinctTargets_filter (h : DistinctTargets R n k seed (A ++ B)) :
    DistinctTargets R n k seed (A.filter (· ∉ B) ++ B.filter (· ∉ A)) :=
  h.append_mono (fun _ hx => List.mem_of_mem_filter hx) fun _ hx => List.mem_of_mem_filter hx

theorem diff_residue {diff : IBLT} (hdistinct : DistinctTargets R n k seed (A ++ B))
    (hdiff : (sketchOf R n k seed A).subtract (sketchOf R n k seed B) = some diff) :
    SameShape diff (blank n k seed) ∧ ∀ i < n, diff.bucket i = (sketchAt R n hk seed).residue A B i := by
  obtain ⟨diff', hdiff', hshape, hbucket⟩ := subtract_sketchOf (R := R) n k seed A B
  obtain rfl : diff' = diff := Option.some.inj (hdiff'.symm.trans hdiff)
  refine ⟨hshape, fun i hi => ?_⟩
  rw [Sketch.residue, ← tally_eq_load fun key hkey => hdistinct key (List.mem_append_left _ hkey),
    ← tally_eq_load fun key hkey => hdistinct key (List.mem_append_right _ hkey)]
  exact hbucket i hi

/-- The peel starts with the whole difference. -/
theorem residual_start {diff : IBLT} (hA : A.Nodup) (hB : B.Nodup)
    (hdistinct : DistinctTargets R n k seed (A ++ B))
    (hdiff : (sketchOf R n k seed A).subtract (sketchOf R n k seed B) = some diff) :
    Residual R hk n seed (A.filter (· ∉ B)) (B.filter (· ∉ A)) (peelStart R diff) (A.filter (· ∉ B))
      (B.filter (· ∉ A)) := by
  obtain ⟨hshape, hbucket⟩ := diff_residue hdistinct hdiff
  refine ⟨hshape, fun i hi => ?_, ⟨fun x hx hx' => ?_, hA.filter _, hB.filter _, List.Subset.refl _,
    List.Subset.refl _⟩, List.Perm.refl _, List.Perm.refl _⟩
  · rw [← Sketch.load_sub_load hA hB]
    exact hbucket i hi
  · have hin := List.mem_of_mem_filter hx'
    simp [hin] at hx

end

/-! ### Checksums -/

def xorSum (l : List UInt64) : UInt64 := l.foldr (· ^^^ ·) 0

theorem xorSum_append (l l' : List UInt64) : xorSum (l ++ l') = xorSum l ^^^ xorSum l' := by
  induction l with
  | nil => rw [List.nil_append, xorSum, xorSum, List.foldr_nil, UInt64.zero_xor]
  | cons x l ih =>
    show x ^^^ xorSum (l ++ l') = x ^^^ xorSum l ^^^ xorSum l'
    rw [ih, UInt64.xor_assoc]

variable (R) in
/-- The checksums of two or more of the keys, taken together, are not the checksum of the keys taken together. -/
def ChecksumsApart (n k : ℕ) (seed : Seed) (keys : List UInt64) : Prop :=
  ∀ S : List UInt64, S.Nodup → S ⊆ keys → 2 ≤ S.length →
    xorSum (S.map ((blank n k seed).hashKey R)) ≠ (blank n k seed).hashKey R (xorSum S)

section
variable {n k : ℕ} {hk : 0 < k} {seed : Seed} {A₀ B₀ A B : List UInt64}

variable (R) in
/-- The keys of a list that are in bucket `i`. -/
def occupants (n k : ℕ) (seed : Seed) (keys : List UInt64) (i : ℕ) : List UInt64 :=
  keys.filter fun key => i ∈ (blank n k seed).getHashes R key

theorem mem_occupants :
    key ∈ occupants R n k seed keys i ↔ key ∈ keys ∧ i ∈ (blank n k seed).getHashes R key := by
  rw [occupants, List.mem_filter, decide_eq_true_iff]

theorem load_sums (keys : List UInt64) (i : ℕ) :
    ((sketchAt R n hk seed).load keys i).keySum = xorSum (occupants R n k seed keys i) ∧
    ((sketchAt R n hk seed).load keys i).hashSum =
      xorSum ((occupants R n k seed keys i).map ((blank n k seed).hashKey R)) := by
  induction keys with
  | nil => exact ⟨rfl, rfl⟩
  | cons key keys ih =>
    rw [Sketch.load_cons, Sketch.share]
    by_cases hi : i ∈ (blank n k seed).getHashes R key
    · have hocc : occupants R n k seed (key :: keys) i = key :: occupants R n k seed keys i :=
        List.filter_cons_of_pos (decide_eq_true hi)
      have hin : i ∈ (sketchAt R n hk seed).targets key := hi
      rw [if_pos hin, hocc]
      exact ⟨congrArg (key ^^^ ·) ih.1, congrArg ((blank n k seed).hashKey R key ^^^ ·) ih.2⟩
    · have hocc : occupants R n k seed (key :: keys) i = occupants R n k seed keys i :=
        List.filter_cons_of_neg (by simpa using hi)
      have hout : i ∉ (sketchAt R n hk seed).targets key := hi
      rw [if_neg hout, hocc, zero_add]
      exact ih

/-- **A bucket with two or more keys is not taken for a pure one.** -/
theorem noFalsePure_of_checksumsApart (hdisjoint : A₀.Disjoint B₀)
    (hsum : ChecksumsApart R n k seed (A₀ ++ B₀)) : (sketchAt R n hk seed).NoFalsePure A₀ B₀ := by
  intro A B hA hB hAsub hBsub i hacc
  obtain ⟨hcount, hhash⟩ := hacc
  have hsums : ∀ keys, ((sketchAt R n hk seed).load keys i).keySum = xorSum (occupants R n k seed keys i) ∧
      ((sketchAt R n hk seed).load keys i).hashSum =
        xorSum ((occupants R n k seed keys i).map ((blank n k seed).hashKey R)) := fun keys => load_sums keys i
  have hkeys : ((sketchAt R n hk seed).residue A B i).keySum = xorSum (occupants R n k seed (A ++ B) i) := by
    rw [occupants, List.filter_append, xorSum_append, ← occupants, ← occupants, ← (hsums A).1, ← (hsums B).1]
    rfl
  have hhashes : ((sketchAt R n hk seed).residue A B i).hashSum =
      xorSum ((occupants R n k seed (A ++ B) i).map ((blank n k seed).hashKey R)) := by
    rw [occupants, List.filter_append, List.map_append, xorSum_append, ← occupants, ← occupants, ← (hsums A).2,
      ← (hsums B).2]
    rfl
  have hnodup : (occupants R n k seed (A ++ B) i).Nodup := by
    refine List.Nodup.filter _ (List.nodup_append.mpr ⟨hA, hB, fun x hx y hy heq => ?_⟩)
    exact hdisjoint (hAsub hx) (hBsub (heq ▸ hy))
  have hsub : occupants R n k seed (A ++ B) i ⊆ A₀ ++ B₀ := by
    intro x hx
    rcases List.mem_append.mp (mem_occupants.mp hx).1 with hx | hx
    · exact List.mem_append_left _ (hAsub hx)
    · exact List.mem_append_right _ (hBsub hx)
  rw [hkeys, hhashes] at hhash
  cases hocc : occupants R n k seed (A ++ B) i with
  | nil =>
    -- an empty bucket has count zero
    have hnone : ∀ x ∈ A ++ B, i ∉ (sketchAt R n hk seed).targets x := by
      intro x hx hi
      have hmem := mem_occupants.mpr ⟨hx, hi⟩
      rw [hocc] at hmem
      cases hmem
    rw [Sketch.residue, Sketch.load_eq_zero fun x hx => hnone x (List.mem_append_left _ hx),
      Sketch.load_eq_zero fun x hx => hnone x (List.mem_append_right _ hx), sub_zero] at hcount
    exact absurd hcount (by decide)
  | cons x rest =>
    cases rest with
    | nil =>
      refine ⟨x, mem_occupants.mp (hocc ▸ List.mem_cons_self), fun y hy => ?_⟩
      have hmem := mem_occupants.mpr hy
      rw [hocc] at hmem
      exact List.mem_singleton.mp hmem
    | cons y rest =>
      refine absurd hhash (hsum _ hnodup hsub ?_)
      rw [hocc, List.length_cons, List.length_cons]
      omega

end

/-! ### Buckets that pass for pure ones -/

variable (R) in
/-- No bucket is taken for a pure one: whenever a bucket of the difference of two sketches, of any keys that only one
side has, passes `isPure`, exactly one key is in it. -/
def NoFalsePureBucket (n k : ℕ) (seed : Seed) (A B : List UInt64) : Prop :=
  ∀ A' B' : List UInt64, A'.Nodup → B'.Nodup → (∀ x ∈ A', x ∈ A ∧ x ∉ B) → (∀ x ∈ B', x ∈ B ∧ x ∉ A) →
    ∀ diff, (sketchOf R n k seed A').subtract (sketchOf R n k seed B') = some diff →
      ∀ idx, diff.isPure R idx → ∃! key, key ∈ A' ++ B' ∧ idx ∈ diff.getHashes R key

section
variable {n k : ℕ} {hk : 0 < k} {seed : Seed} {A B : List UInt64}

/-- The buckets past the table are not pure, so the condition is one on the cells of the sketch. -/
theorem NoFalsePureBucket.noFalsePure (h : NoFalsePureBucket R n k seed A B)
    (hdistinct : DistinctTargets R n k seed (A ++ B)) (hn : 0 < n) (hmax : n < 2 ^ 63) :
    (sketchAt R n hk seed).NoFalsePure (A.filter (· ∉ B)) (B.filter (· ∉ A)) := by
  intro A' B' hA' hB' hAsub hBsub i hacc
  obtain ⟨diff, hdiff, -⟩ := subtract_sketchOf (R := R) n k seed A' B'
  have hdistinct' := (distinctTargets_filter hdistinct).append_mono hAsub hBsub
  obtain ⟨hshape, hbucket⟩ := diff_residue hdistinct' hdiff
  have hlt : i < n := by
    by_contra hge
    have hnone : ∀ x, i ∉ (sketchAt R n hk seed).targets x := fun x hx => hge (lt_of_mem_blank hn hmax hx)
    rw [Sketch.residue, Sketch.load_eq_zero fun x _ => hnone x, Sketch.load_eq_zero fun x _ => hnone x,
      sub_zero] at hacc
    exact absurd hacc.1 (by decide)
  rw [← hbucket i hlt] at hacc
  have hunique := h A' B' hA' hB' (fun x hx => mem_filter_notMem.mp (hAsub hx))
    (fun x hx => mem_filter_notMem.mp (hBsub hx)) diff hdiff i ((isPure_iff_accepts hshape i).mpr hacc)
  simp only [hshape.getHashes] at hunique
  exact hunique

/-- Checksums that are apart leave no such bucket. -/
theorem noFalsePureBucket_of_checksumsApart (hk : 0 < k) (hdistinct : DistinctTargets R n k seed (A ++ B))
    (hsum : ChecksumsApart R n k seed (A.filter (· ∉ B) ++ B.filter (· ∉ A))) : NoFalsePureBucket R n k seed A B := by
  intro A' B' hA' hB' hAsub hBsub diff hdiff idx hidx
  have hdistinct' := hdistinct.append_mono (fun x hx => (hAsub x hx).1) fun x hx => (hBsub x hx).1
  obtain ⟨hshape, hbucket⟩ : _ ∧ ∀ i < n, diff.bucket i = (sketchAt R n hk seed).residue A' B' i :=
    diff_residue hdistinct' hdiff
  have hlt : idx < n := by
    rw [← hshape.length_blank]
    exact IBLT.lt_of_isPure hidx
  have hdisjoint : (A.filter (· ∉ B)).Disjoint (B.filter (· ∉ A)) := fun x hx hx' =>
    (mem_filter_notMem.mp hx').2 (mem_filter_notMem.mp hx).1
  have hacc : (sketchAt R n hk seed).accepts (diff.bucket idx) := (isPure_iff_accepts hshape idx).mp hidx
  rw [hbucket idx hlt] at hacc
  simp only [hshape.getHashes]
  exact noFalsePure_of_checksumsApart hdisjoint hsum A' B' hA' hB'
    (fun x hx => mem_filter_notMem.mpr (hAsub x hx)) (fun x hx => mem_filter_notMem.mpr (hBsub x hx)) idx hacc

end

/-! ### Peeling is exact -/

/-- **Peeling is exact.**  For all finite sets of keys, put into tables of one size, hash count and seed: if the
buckets of each key are distinct and the checksums of two or more keys of the symmetric difference are apart from the
checksum of their exclusive or, then the difference is peeled; at every step what is left is the difference without
the local keys and with the remote keys listed so far; and a peel that succeeds has listed the keys of the one side
only and those of the other side only, each once. -/
theorem peel_is_exact (R : Runtime) (n k : ℕ) (seed : Seed) (empty : IBLT)
    (hempty : newIBLTWithSeed n k seed = some empty) (hn : 0 < n) (hmax : n < 2 ^ 63) (A B : List UInt64)
    (hA : A.Nodup) (hB : B.Nodup) (hdistinct : ∀ key ∈ A ++ B, (empty.getHashes R key).Nodup)
    (hsum : ∀ S : List UInt64, S.Nodup → (∀ key ∈ S, key ∈ A ∧ key ∉ B ∨ key ∈ B ∧ key ∉ A) → 2 ≤ S.length →
      xorSum (S.map (empty.hashKey R)) ≠ empty.hashKey R (xorSum S)) :
    ∃ diff, (A.foldl (insert R) empty).subtract (B.foldl (insert R) empty) = some diff ∧
      diff.Halts R ∧
      (∀ j i, ((peelStep R)^[j] (peelStart R diff)).table.bucket i = diff.bucket i -
        (((peelStep R)^[j] (peelStart R diff)).localHas.foldl (insert R) empty).bucket i +
        (((peelStep R)^[j] (peelStart R diff)).remoteHas.foldl (insert R) empty).bucket i) ∧
      ∀ fuel localHas remoteHas, diff.peel R fuel = some (localHas, remoteHas, false) →
        localHas.Nodup ∧ remoteHas.Nodup ∧ (∀ key, key ∈ localHas ↔ key ∈ A ∧ key ∉ B) ∧
          ∀ key, key ∈ remoteHas ↔ key ∈ B ∧ key ∉ A := by
  rw [newIBLTWithSeed] at hempty
  split_ifs at hempty with hkbad
  rw [not_or, not_lt] at hkbad
  have hk : 0 < k := Nat.pos_of_ne_zero hkbad.1
  obtain rfl : blank n k seed = empty := Option.some.inj hempty
  obtain ⟨diff, hdiff, hshape, -⟩ := subtract_sketchOf (R := R) n k seed A B
  have hstart : Residual R hk n seed _ _ (peelStart R diff) _ _ := residual_start hA hB hdistinct hdiff
  have hpure : (sketchAt R n hk seed).NoFalsePure (A.filter (· ∉ B)) (B.filter (· ∉ A)) := by
    refine noFalsePure_of_checksumsApart hstart.part.disjoint fun S hS hsub => hsum S hS fun key hkey => ?_
    rcases List.mem_append.mp (hsub hkey) with hkey | hkey
    · exact .inl (mem_filter_notMem.mp hkey)
    · exact .inr (mem_filter_notMem.mp hkey)
  have hdistinct' := distinctTargets_filter hdistinct
  refine ⟨diff, hdiff, halts_iff.mpr (hstart.ends hpure hdistinct'), table_iterate hshape,
    fun fuel localHas remoteHas hpeel => ?_⟩
  obtain ⟨A', B', hend⟩ := hstart.iterate hpure hdistinct' fuel
  obtain ⟨-, rfl, rfl, hzero⟩ := peel_eq_some_iff.mp hpeel
  obtain ⟨hlocal, hremote⟩ := hend.complete hpure hn hmax hzero
  exact ⟨hlocal.nodup_iff.mpr (hA.filter _), hremote.nodup_iff.mpr (hB.filter _),
    fun key => hlocal.mem_iff.trans mem_filter_notMem, fun key => hremote.mem_iff.trans mem_filter_notMem⟩

/-- Two keys that share a bucket of a small table. -/
def leftKey : UInt64 := 0x0500000000000000

@[inherit_doc leftKey]
def rightKey : UInt64 := 0x0600000000000000

/-- One key on each side, with a bucket in common: the peel succeeds. -/
theorem peel_is_exact_on_two_keys :
    ∃ diff, ([leftKey].foldl (insert Runtime.sample) (blank 16 2 7)).subtract
        ([rightKey].foldl (insert Runtime.sample) (blank 16 2 7)) = some diff ∧ diff.Halts Runtime.sample ∧
      diff.peel Runtime.sample 4 = some ([leftKey], [rightKey], false) ∧
      ∀ fuel localHas remoteHas, diff.peel Runtime.sample fuel = some (localHas, remoteHas, false) →
        (∀ key, key ∈ localHas ↔ key ∈ [leftKey] ∧ key ∉ [rightKey]) := by
  have hdistinct : ∀ key ∈ [leftKey] ++ [rightKey], ((blank 16 2 7).getHashes Runtime.sample key).Nodup := by
    intro key hkey
    rcases List.mem_pair.mp hkey with rfl | rfl
    · decide +kernel
    · decide +kernel
  have hapart : ∀ S : List UInt64, S.Nodup →
      (∀ key ∈ S, key ∈ [leftKey] ∧ key ∉ [rightKey] ∨
        key ∈ [rightKey] ∧ key ∉ [leftKey]) →
      2 ≤ S.length → xorSum (S.map ((blank 16 2 7).hashKey Runtime.sample)) ≠
        (blank 16 2 7).hashKey Runtime.sample (xorSum S) := by
    intro S hS hmem hlen
    have hsub : S ⊆ [leftKey, rightKey] := by
      intro key hkey
      rcases hmem key hkey with h | h
      · rw [List.mem_singleton.mp h.1]
        exact List.mem_cons_self
      · rw [List.mem_singleton.mp h.1]
        exact List.mem_cons_of_mem _ List.mem_cons_self
    have hle : S.length ≤ 2 := (List.subperm_of_subset hS hsub).length_le
    obtain ⟨x, y, rfl⟩ := List.length_eq_two.mp (le_antisymm hle hlen)
    have hx := hsub List.mem_cons_self
    have hy := hsub (List.mem_cons_of_mem _ List.mem_cons_self)
    rw [List.mem_pair] at hx hy
    rcases hx with rfl | rfl
    · rcases hy with rfl | rfl
      · simp at hS
      · decide +kernel
    · rcases hy with rfl | rfl
      · decide +kernel
      · simp at hS
  have hpeel : (([leftKey].foldl (insert Runtime.sample) (blank 16 2 7)).subtract
      ([rightKey].foldl (insert Runtime.sample) (blank 16 2 7))).bind (·.peel Runtime.sample 4)
        = some ([leftKey], [rightKey], false) := by decide +kernel
  obtain ⟨diff, hdiff, hhalts, -, hexact⟩ := peel_is_exact Runtime.sample 16 2 7 (blank 16 2 7) rfl (by decide)
    (by decide) [leftKey] [rightKey] (List.nodup_singleton _) (List.nodup_singleton _) hdistinct hapart
  rw [hdiff] at hpeel
  exact ⟨diff, hdiff, hhalts, hpeel,
    fun fuel localHas remoteHas hpeel => (hexact fuel localHas remoteHas hpeel).2.2.1⟩

end

end IBLT

end Sovereign.Sync

import Sovereign.Sync.IbltWire
import Sovereign.Sync.Peeling

/-!
# Which tables are peeled in finite time

`Peel` and `PeelArena` run until their queue of candidate buckets is empty.  On the difference of two
sketches every listed key leaves the table, and the loop ends (`halts_of_truthful`, here for every table
size and hash count).  On a table a peer makes up nothing of the kind holds: the checksum of a
bucket says nothing about the other buckets of its key.

* With one hash every table is peeled: a step that queues a bucket makes an even count odd
  (`halts_of_one_hash`).
* A key that stands in a part of its buckets only (`Holds`) is taken out of the ones it is in and so
  put, negatively, into the ones it is not in; from there it is put back.  The table swings between two
  states and the queue never runs empty (`not_halts_of_holds`).

The decoder of the wire bounds the number of buckets and of hashes only, so both kinds of table reach the
loop.
-/

namespace Sovereign.Sync

open Lib

namespace IBLT

variable (R : Runtime)

def Halts (t : IBLT) : Prop := ∃ fuel out, t.peel R fuel = some out

/-! ### One turn of the loop -/

/-- The queue and the table after the candidate `idx`. -/
def turn (idx : ℕ) (queue : List ℕ) (t : IBLT) : List ℕ × IBLT :=
  if t.isPure R idx then
    ((t.unpeel R queue (t.bucket idx).keySum (0 < (t.bucket idx).count)).2,
      (t.unpeel R queue (t.bucket idx).keySum (0 < (t.bucket idx).count)).1)
  else (queue, t)

section
variable {R}

theorem peelLoop_turn (fuel idx : ℕ) (queue : List ℕ) (t : IBLT) (localHas remoteHas : List UInt64) :
    ∃ localHas' remoteHas', peelLoop R (fuel + 1) (idx :: queue) t localHas remoteHas =
      peelLoop R fuel (turn R idx queue t).1 (turn R idx queue t).2 localHas' remoteHas' := by
  rw [peelLoop, turn]
  by_cases hpure : t.isPure R idx = true
  · have hcount : isPureCount (t.bucket idx).count = true := by
      rw [isPure, decide_eq_true_iff] at hpure
      exact hpure.1
    simp only [hcount, hpure, Bool.not_true, Bool.false_eq_true, if_false, if_true]
    by_cases hpos : 0 < (t.bucket idx).count
    · simp only [hpos, if_true, decide_true]
      exact ⟨_, _, rfl⟩
    · simp only [hpos, if_false, decide_false]
      exact ⟨_, _, rfl⟩
  · rw [Bool.not_eq_true] at hpure
    simp only [hpure, Bool.not_false, if_true, ite_self, Bool.false_eq_true, if_false]
    exact ⟨_, _, rfl⟩

variable {t : IBLT} {idx : ℕ} {key : UInt64} {queue : List ℕ} {u : IBLT} {i : ℕ} {positive : Bool}
  {occ : ℕ → ℕ} {n k : ℕ} {α : Type*} {occ' : ℕ → ℕ}

/-- The loop ends when every turn uses up some of a budget. -/
theorem peelLoop_ends (I : ℕ → List ℕ → IBLT → Prop) (hzero : ∀ queue t, I 0 queue t → queue = [])
    (hturn : ∀ N idx queue t, I (N + 1) (idx :: queue) t → I N (turn R idx queue t).1 (turn R idx queue t).2)
    {N : ℕ} (h : I N queue t) (localHas remoteHas : List UInt64) :
    ∃ out, peelLoop R N queue t localHas remoteHas = some out := by
  induction N generalizing queue t localHas remoteHas with
  | zero =>
    rw [hzero queue t h]
    exact ⟨_, rfl⟩
  | succ N ih =>
    cases queue with
    | nil => exact ⟨_, rfl⟩
    | cons idx queue =>
      obtain ⟨localHas', remoteHas', heq⟩ := peelLoop_turn (R := R) N idx queue t localHas remoteHas
      rw [heq]
      exact ih (hturn N idx queue t h) localHas' remoteHas'

/-- The loop does not end when every turn leaves a candidate. -/
theorem peelLoop_never (J : List ℕ → IBLT → Prop) (hne : ∀ t, ¬ J [] t)
    (hturn : ∀ idx queue t, J (idx :: queue) t → J (turn R idx queue t).1 (turn R idx queue t).2)
    (h : J queue t) (fuel : ℕ) (localHas remoteHas : List UInt64) :
    peelLoop R fuel queue t localHas remoteHas = none := by
  induction fuel generalizing queue t localHas remoteHas with
  | zero =>
    cases queue with
    | nil => exact absurd h (hne t)
    | cons idx queue => rfl
  | succ fuel ih =>
    cases queue with
    | nil => exact absurd h (hne t)
    | cons idx queue =>
      obtain ⟨localHas', remoteHas', heq⟩ := peelLoop_turn (R := R) fuel idx queue t localHas remoteHas
      rw [heq]
      exact ih (hturn idx queue t h) localHas' remoteHas'

theorem halts_of_budget (I : ℕ → List ℕ → IBLT → Prop) (hzero : ∀ queue t, I 0 queue t → queue = [])
    (hturn : ∀ N idx queue t, I (N + 1) (idx :: queue) t → I N (turn R idx queue t).1 (turn R idx queue t).2)
    {N : ℕ} (h : I N ((List.range t.buckets.length).filter fun i => t.isPure R i) t) : t.Halts R := by
  obtain ⟨out, hout⟩ := peelLoop_ends I hzero hturn h [] []
  refine ⟨N, (out.2.1, out.2.2, out.1.buckets.any (· ≠ 0)), ?_⟩
  rw [peel, hout]

/-! ### What a turn does to the buckets -/

variable (R) in
def unit (t : IBLT) (key : UInt64) : Bucket := ⟨1, key, t.hashKey R key⟩

/-- Tables of one configuration have the same hashes. -/
structure SameShape (t u : IBLT) : Prop where
  length : t.buckets.length = u.buckets.length
  k : t.k = u.k
  seed : t.seed = u.seed

theorem SameShape.unit (h : SameShape t u) (key : UInt64) : t.unit R key = u.unit R key := by
  rw [IBLT.unit, IBLT.unit, IBLT.hashKey, IBLT.hashKey, h.seed]

theorem SameShape.getHashes (h : SameShape t u) (key : UInt64) : t.getHashes R key = u.getHashes R key := by
  rw [IBLT.getHashes, IBLT.getHashes, IBLT.hashKey, IBLT.hashKey, h.seed, h.k, h.length]

theorem SameShape.trans {v : IBLT} (h : SameShape t u) (h' : SameShape u v) : SameShape t v :=
  ⟨h.length.trans h'.length, h.k.trans h'.k, h.seed.trans h'.seed⟩

theorem SameShape.isPure (h : SameShape t u) (hb : t.bucket idx = u.bucket idx) :
    t.isPure R idx = u.isPure R idx := by
  rw [IBLT.isPure, IBLT.isPure, hb, IBLT.hashKey, IBLT.hashKey, h.seed]

/-- A pure bucket holds one occurrence of its key, on one side or the other. -/
theorem isPure_iff_unit :
    t.isPure R idx ↔ t.bucket idx = t.unit R (t.bucket idx).keySum ∨
      t.bucket idx = -t.unit R (t.bucket idx).keySum := by
  rw [isPure, decide_eq_true_iff, isPureCount, decide_eq_true_iff, IBLT.unit, Bucket.neg_def]
  constructor
  · rintro ⟨hcount | hcount, hhash⟩
    · exact .inl (Bucket.ext hcount rfl hhash)
    · exact .inr (Bucket.ext hcount rfl hhash)
  · rintro (h | h)
    · exact ⟨.inl (congrArg Bucket.count h), congrArg Bucket.hashSum h⟩
    · exact ⟨.inr (congrArg Bucket.count h), congrArg Bucket.hashSum h⟩

theorem isPure_of_eq_unit (key : UInt64)
    (h : t.bucket idx = t.unit R key ∨ t.bucket idx = -t.unit R key) : t.isPure R idx := by
  have hkey : (t.bucket idx).keySum = key := by
    rcases h with h | h
    · exact congrArg Bucket.keySum h
    · exact congrArg Bucket.keySum h
  rw [isPure_iff_unit, hkey]
  exact h

/-- A bucket that holds one occurrence is taken at its word, with its sign. -/
theorem turn_of_eq_unit (queue : List ℕ) (key : UInt64) (positive : Bool)
    (h : t.bucket idx = if positive then t.unit R key else -t.unit R key) :
    turn R idx queue t = ((t.unpeel R queue key positive).2, (t.unpeel R queue key positive).1) := by
  cases positive with
  | true =>
    rw [if_pos rfl] at h
    rw [turn, if_pos (isPure_of_eq_unit key (.inl h)), h]
    rfl
  | false =>
    rw [if_neg Bool.false_ne_true] at h
    rw [turn, if_pos (isPure_of_eq_unit key (.inr h)), h]
    rfl

theorem lt_of_isPure (h : t.isPure R idx) : idx < t.buckets.length := by
  by_contra hge
  have hzero : t.bucket idx = 0 := by
    rw [bucket, List.getD_eq_getElem?_getD, List.getElem?_eq_none (Nat.not_lt.mp hge)]
    rfl
  rw [isPure, decide_eq_true_iff, hzero] at h
  exact absurd h.1 (by decide)

theorem getD_foldl_modify_add [AddCommGroup α] (c : α) (idxs : List ℕ) (bs : List α) (hi : i < bs.length) :
    (idxs.foldl (fun bs idx => bs.modify idx (· + c)) bs).getD i 0 = bs.getD i 0 + idxs.count i • c := by
  induction idxs generalizing bs with
  | nil => rw [List.foldl_nil, List.count_nil, zero_nsmul, add_zero]
  | cons idx idxs ih =>
    rw [List.foldl_cons, ih _ (by rwa [List.length_modify]), List.count_cons]
    by_cases heq : idx = i
    · subst heq
      have hget : (bs.modify idx (· + c)).getD idx 0 = bs.getD idx 0 + c := by
        simp [List.getD_eq_getElem?_getD, List.getElem?_eq_getElem hi]
      rw [hget, beq_self_eq_true, if_pos rfl, succ_nsmul, add_assoc, add_comm c]
    · have hget : (bs.modify idx (· + c)).getD i 0 = bs.getD i 0 := by
        simp [List.getD_eq_getElem?_getD, heq]
      rw [hget, if_neg (by simpa using heq), Nat.add_zero]

theorem getD_foldl_modify_of_notMem (f : α → α) (d : α) {idxs : List ℕ} (bs : List α)
    (h : i ∉ idxs) : (idxs.foldl (fun bs idx => bs.modify idx f) bs).getD i d = bs.getD i d := by
  induction idxs generalizing bs with
  | nil => rfl
  | cons idx idxs ih =>
    rw [List.mem_cons, not_or] at h
    rw [List.foldl_cons, ih _ h.2]
    simp [List.getD_eq_getElem?_getD, Ne.symm h.1]

/-- The bucket that one side of a peel writes. -/
theorem stroke_eq {key : UInt64} (positive : Bool) :
    stroke R t key positive = (· + if positive then -t.unit R key else t.unit R key) := by
  funext b
  cases positive with
  | true => exact take_eq b key _
  | false => exact put_eq b key _

/-- Taking a key out changes each bucket by the key's occurrences in it. -/
theorem unpeel_buckets (t : IBLT) (queue : List ℕ) (key : UInt64) (positive : Bool) :
    SameShape (t.unpeel R queue key positive).1 t ∧
      (t.unpeel R queue key positive).2.length ≤ queue.length + t.k ∧
      ∀ i < t.buckets.length, (t.unpeel R queue key positive).1.bucket i
        = t.bucket i + (t.getHashes R key).count i • if positive then -t.unit R key else t.unit R key := by
  rw [unpeel_table]
  refine ⟨⟨length_foldl_modify _ _ _, rfl, rfl⟩,
    (foldl_strike (R := R) (stroke R t key positive) (t.getHashes R key) t queue).2.trans_eq ?_, fun i hi => ?_⟩
  · rw [getHashes, List.length_map, List.length_range]
  · rw [stroke_eq]
    exact getD_foldl_modify_add _ _ _ hi

/-- A bucket of the key that ends up pure is queued; what was queued stays. -/
theorem mem_foldl_strike (f : Bucket → Bucket) {idxs : List ℕ} (h : idx ∈ queue ∨ idx ∈ idxs ∧
      ({ t with buckets := idxs.foldl (fun bs i => bs.modify i f) t.buckets } : IBLT).isPure R idx) :
    idx ∈ (idxs.foldl (strike R enqueue f) (t, queue)).2 := by
  induction idxs generalizing t queue with
  | nil =>
    rcases h with h | h
    · exact h
    · cases h.1
  | cons i idxs ih =>
    refine ih ?_
    dsimp only
    rcases h with h | ⟨hmem, hpure⟩
    · left
      split
      · exact List.mem_append_left _ h
      · exact h
    · by_cases htail : idx ∈ idxs
      · exact .inr ⟨htail, hpure⟩
      · -- the last write to the bucket is this one, so it is pure now
        obtain rfl : idx = i := (List.mem_cons.mp hmem).resolve_right htail
        left
        have hlast : ({ t with buckets := (idx :: idxs).foldl (fun bs i => bs.modify i f) t.buckets } :
            IBLT).bucket idx = ({ t with buckets := t.buckets.modify idx f } : IBLT).bucket idx := by
          rw [List.foldl_cons]
          exact getD_foldl_modify_of_notMem f 0 _ htail
        have hnow : ({ t with buckets := t.buckets.modify idx f } : IBLT).isPure R idx := by
          rw [isPure, ← hlast]
          exact hpure
        rw [if_pos hnow]
        exact List.mem_append_right _ (List.mem_singleton.mpr rfl)

theorem mem_unpeel
    (h : idx ∈ queue ∨ idx ∈ t.getHashes R key ∧ (t.unpeel R queue key positive).1.isPure R idx) :
    idx ∈ (t.unpeel R queue key positive).2 := by
  rw [unpeel_table] at h
  rw [unpeel_eq_foldl]
  exact mem_foldl_strike _ h

/-! ### One hash -/

def evenCount (b : Bucket) : Bool := b.count.toUInt32.toNat % 2 = 0

def evens (t : IBLT) : ℕ := t.buckets.countP evenCount

theorem evenCount_take (b : Bucket) (key hash : UInt64) : evenCount (b.take key hash) = !evenCount b := by
  have hlt := b.count.toUInt32.toNat_lt
  have hone : (1 : Int32).toUInt32.toNat = 1 := rfl
  rw [evenCount, evenCount, ← decide_not, decide_eq_decide, Bucket.take, Int32.toUInt32_sub,
    UInt32.toNat_sub, hone]
  omega

theorem evenCount_put (b : Bucket) (key hash : UInt64) : evenCount (b.put key hash) = !evenCount b := by
  have hlt := b.count.toUInt32.toNat_lt
  have hone : (1 : Int32).toUInt32.toNat = 1 := rfl
  rw [evenCount, evenCount, ← decide_not, decide_eq_decide, Bucket.put, Int32.toUInt32_add,
    UInt32.toNat_add, hone]
  omega

theorem not_evenCount_of_isPure (h : t.isPure R idx) : evenCount (t.bucket idx) = false := by
  rw [isPure, decide_eq_true_iff, isPureCount, decide_eq_true_iff] at h
  rcases h.1 with hcount | hcount
  · rw [evenCount, hcount]
    rfl
  · rw [evenCount, hcount]
    rfl

theorem countP_modify_lt {p : α → Bool} {f : α → α} {l : List α} (hi : i < l.length)
    (hp : p l[i] = true) (hf : p (f l[i]) = false) : (l.modify i f).countP p < l.countP p := by
  have hpos : 0 < l.countP p := List.countP_pos_iff.mpr ⟨l[i], List.getElem_mem hi, hp⟩
  have hset : l.modify i f = l.set i (f l[i]) := by
    rw [List.modify_eq_set_getElem?, List.getElem?_eq_getElem hi]
    rfl
  rw [hset, List.countP_set hi, hp, hf]
  simp only [if_true, Bool.false_eq_true, if_false]
  omega

/-- A write that makes a bucket pure makes its even counter odd. -/
theorem evens_lt_of_isPure {f : Bucket → Bucket} (hf : ∀ b, evenCount (f b) = !evenCount b)
    (h : ({ t with buckets := t.buckets.modify idx f } : IBLT).isPure R idx) :
    ({ t with buckets := t.buckets.modify idx f } : IBLT).evens < t.evens := by
  have hlt : idx < t.buckets.length := by
    have := lt_of_isPure h
    rwa [List.length_modify] at this
  have hodd := not_evenCount_of_isPure h
  rw [bucket, List.getD_eq_getElem?_getD, List.getElem?_modify_eq, List.getElem?_eq_getElem hlt] at hodd
  have hodd' : evenCount (f t.buckets[idx]) = false := hodd
  refine countP_modify_lt hlt ?_ hodd'
  rwa [hf, Bool.not_eq_false'] at hodd'

/-- **With one hash every table is peeled**: the queue does not grow, and a turn that queues a bucket has
made an even counter odd. -/
theorem halts_of_one_hash (hk : t.k = 1) : t.Halts R := by
  set n := t.buckets.length with hn
  let I : ℕ → List ℕ → IBLT → Prop := fun N queue u =>
    u.k = 1 ∧ u.buckets.length = n ∧ queue.length * (n + 1) + u.evens ≤ N
  refine halts_of_budget I ?_ ?_ ⟨hk, hn.symm, le_refl _⟩
  · rintro queue u ⟨-, -, hle⟩
    cases queue with
    | nil => rfl
    | cons idx queue =>
      rw [List.length_cons, Nat.succ_mul] at hle
      omega
  · rintro N idx queue u ⟨hu, hlen, hle⟩
    rw [List.length_cons, Nat.succ_mul] at hle
    by_cases hpure : u.isPure R idx = true
    · obtain ⟨tgt, htgt⟩ : ∃ tgt, u.getHashes R (u.bucket idx).keySum = [tgt] := by
        rw [getHashes, hu]
        exact ⟨_, rfl⟩
      rw [turn, if_pos hpure, unpeel, htgt, List.foldl_cons, List.foldl_nil]
      dsimp only
      set f : Bucket → Bucket := fun b => if decide (0 < (u.bucket idx).count) = true then
        b.take (u.bucket idx).keySum (u.hashKey R (u.bucket idx).keySum)
        else b.put (u.bucket idx).keySum (u.hashKey R (u.bucket idx).keySum) with hfdef
      have hf : ∀ b, evenCount (f b) = !evenCount b := by
        intro b
        rw [hfdef]
        dsimp only
        split
        · exact evenCount_take b _ _
        · exact evenCount_put b _ _
      refine ⟨hu, (List.length_modify _ _ _).trans hlen, ?_⟩
      split
      · next hqueued =>
        have hfewer := evens_lt_of_isPure hf hqueued
        rw [List.length_append, List.length_singleton, Nat.succ_mul]
        omega
      · have hall : ({ u with buckets := u.buckets.modify tgt f } : IBLT).evens ≤ n := by
          rw [← hlen, ← List.length_modify f u.buckets tgt]
          exact List.countP_le_length
        omega
    · rw [turn, if_neg hpure]
      refine ⟨hu, hlen, ?_⟩
      dsimp only
      omega

/-! ### One bucket -/

/-- Of the multiples of a key's unit that a table can hold, only the single one looks pure. -/
theorem isPureCount_nsmul (t : IBLT) (key : UInt64) {j : ℕ} (hj : j ≤ ibltMaxK) :
    isPureCount (j • t.unit R key).count = decide (j = 1) ∧
      isPureCount (-(j • t.unit R key)).count = decide (j = 1) := by
  have hone : (t.unit R key).count = 1 := rfl
  rw [ibltMaxK] at hj
  interval_cases j
  all_goals
    simp only [succ_nsmul, zero_nsmul, Bucket.neg_def, Bucket.add_def, Bucket.zero_def, hone]
    decide

theorem isPureCount_of_isPure (h : t.isPure R idx) : isPureCount (t.bucket idx).count = true := by
  rw [isPure, decide_eq_true_iff] at h
  exact h.1

/-- With one bucket and three or more hashes a key that is taken out leaves the bucket impure. -/
theorem halts_of_one_bucket (hn : t.buckets.length = 1) (hk : 3 ≤ t.k) (hmax : t.k ≤ ibltMaxK) : t.Halts R := by
  let I : ℕ → List ℕ → IBLT → Prop := fun N queue u =>
    SameShape u t ∧ queue.length + (if u.isPure R 0 then t.k + 1 else 0) ≤ N
  refine halts_of_budget I ?_ ?_ ⟨⟨rfl, rfl, rfl⟩, le_refl _⟩
  · rintro queue u ⟨-, hle⟩
    exact List.eq_nil_of_length_eq_zero (by omega)
  · rintro N idx queue u ⟨hshape, hle⟩
    rw [List.length_cons] at hle
    by_cases hpure : u.isPure R idx = true
    · have hlt := lt_of_isPure hpure
      rw [hshape.length, hn, Nat.lt_one_iff] at hlt
      subst hlt
      rw [if_pos hpure] at hle
      rw [turn, if_pos hpure]
      set key := (u.bucket 0).keySum with hkey
      obtain ⟨hshape', hqueue, hbucket⟩ := unpeel_buckets (R := R) u queue key (0 < (u.bucket 0).count)
      have hall : (u.getHashes R key).count 0 = t.k := by
        have hlen : (u.getHashes R key).length = t.k := by
          rw [getHashes, List.length_map, List.length_range, hshape.k]
        rw [← hlen, List.count_eq_length]
        intro i hi
        obtain ⟨m, -, rfl⟩ := List.mem_map.mp hi
        rw [hshape.length, hn, UInt64.toNat_mod]
        exact (Nat.mod_one _).symm
      have hnot : (u.unpeel R queue key (0 < (u.bucket 0).count)).1.isPure R 0 = false := by
        rw [Bool.eq_false_iff]
        intro hagain
        have hcount := isPureCount_of_isPure hagain
        obtain ⟨j, hj⟩ : ∃ j, t.k = j + 1 := ⟨t.k - 1, by omega⟩
        have hle : j ≤ ibltMaxK := by omega
        rw [hbucket 0 (by rw [hshape.length, hn]; exact Nat.one_pos), hall, hj] at hcount
        rcases isPure_iff_unit.mp hpure with hunit | hunit
        · have hpos : decide (0 < (u.bucket 0).count) = true := by
            rw [hunit]
            rfl
          rw [hpos, hunit, ← hkey, if_pos rfl, succ_nsmul, smul_neg, add_comm, add_assoc, neg_add_cancel,
            add_zero, (isPureCount_nsmul u key hle).2, decide_eq_true_iff] at hcount
          omega
        · have hneg : decide (0 < (u.bucket 0).count) = false := by
            rw [hunit]
            rfl
          rw [hneg, hunit, ← hkey, if_neg Bool.false_ne_true, succ_nsmul, add_comm, add_assoc, add_neg_cancel,
            add_zero, (isPureCount_nsmul u key hle).1, decide_eq_true_iff] at hcount
          omega
      refine ⟨hshape'.trans hshape, ?_⟩
      rw [hshape.k] at hqueue
      dsimp only
      rw [if_neg (by rw [hnot]; exact Bool.false_ne_true)]
      omega
    · rw [turn, if_neg hpure]
      refine ⟨hshape, ?_⟩
      dsimp only
      omega

/-! ### A key in a part of its buckets -/

/-- `occ i` occurrences of a key in bucket `i`, all on one side. -/
def Holds (R : Runtime) (t : IBLT) (key : UInt64) (positive : Bool) (occ : ℕ → ℕ) : Prop :=
  ∀ i < t.buckets.length, t.bucket i = if positive then occ i • t.unit R key else -(occ i • t.unit R key)

theorem Holds.isPure_iff
    (h : Holds R t key positive occ) (hi : i < t.buckets.length) (hocc : occ i ≤ ibltMaxK) :
    t.isPure R i ↔ occ i = 1 := by
  have hbucket := h i hi
  constructor
  · intro hpure
    have hcount := isPureCount_of_isPure hpure
    rw [hbucket] at hcount
    cases positive with
    | true => exact decide_eq_true_iff.mp ((isPureCount_nsmul t key hocc).1 ▸ hcount)
    | false => exact decide_eq_true_iff.mp ((isPureCount_nsmul t key hocc).2 ▸ hcount)
  · intro hone
    rw [hone, one_nsmul] at hbucket
    cases positive with
    | true => exact isPure_of_eq_unit key (.inl hbucket)
    | false => exact isPure_of_eq_unit key (.inr hbucket)

/-- A key taken out of all its buckets stands, with the other sign, where it was missing. -/
theorem Holds.unpeel
    (h : Holds R t key positive occ) (hsplit : ∀ i, occ i + occ' i = (t.getHashes R key).count i)
    (queue : List ℕ) : Holds R (t.unpeel R queue key positive).1 key (!positive) occ' := by
  obtain ⟨hshape, -, hbucket⟩ := unpeel_buckets (R := R) t queue key positive
  intro i hi
  rw [hshape.length] at hi
  rw [hbucket i hi, h i hi, hshape.unit, ← hsplit, add_nsmul]
  cases positive with
  | true => simp
  | false => simp

/-- One turn on a table that holds a single key, `a` being queued: either nothing is listed and `a` is
still queued, or the table has changed sides and `b` is queued. -/
theorem Holds.turn (hk : t.k ≤ ibltMaxK)
    (h : Holds R t key positive occ) (hsplit : ∀ i, occ i + occ' i = (t.getHashes R key).count i)
    {a b : ℕ} (ha : a < t.buckets.length ∧ occ a = 1) (hb : b < t.buckets.length ∧ occ' b = 1) (hmem : a ∈ idx :: queue) :
    SameShape (turn R idx queue t).2 t ∧
      (Holds R (turn R idx queue t).2 key positive occ ∧ a ∈ (turn R idx queue t).1 ∨
        Holds R (turn R idx queue t).2 key (!positive) occ' ∧ b ∈ (turn R idx queue t).1) := by
  have hmax : ∀ i, occ i ≤ ibltMaxK ∧ occ' i ≤ ibltMaxK := by
    intro i
    have hle : (t.getHashes R key).count i ≤ t.k := by
      refine List.count_le_length.trans_eq ?_
      rw [getHashes, List.length_map, List.length_range]
    have := hsplit i
    omega
  by_cases hpure : t.isPure R idx = true
  · have hlt := lt_of_isPure hpure
    have hone := (h.isPure_iff hlt (hmax idx).1).mp hpure
    have hunit : t.bucket idx = if positive then t.unit R key else -t.unit R key := by
      rw [h idx hlt, hone, one_nsmul]
    obtain ⟨hshape, -⟩ := unpeel_buckets (R := R) t queue key positive
    have hother := h.unpeel hsplit queue
    have hblt : b < (t.unpeel R queue key positive).1.buckets.length := by
      rw [hshape.length]
      exact hb.1
    rw [turn_of_eq_unit queue key positive hunit]
    refine ⟨hshape, .inr ⟨hother, mem_unpeel (.inr ⟨?_, (hother.isPure_iff hblt (hmax b).2).mpr hb.2⟩)⟩⟩
    rw [← List.count_pos_iff, ← hsplit, hb.2]
    exact Nat.succ_pos _
  · rw [IBLT.turn, if_neg hpure]
    refine ⟨⟨rfl, rfl, rfl⟩, .inl ⟨h, (List.mem_cons.mp hmem).resolve_left ?_⟩⟩
    rintro rfl
    exact hpure ((h.isPure_iff ha.1 (hmax a).1).mpr ha.2)

/-- **A key in a part of its buckets is peeled for ever**: taken out of all its buckets it stands, with
the other sign, in those it was not in, and the next turn puts it back.  `a` is a bucket with one
occurrence, `b` one that lacks one. -/
theorem not_halts_of_holds (hk : t.k ≤ ibltMaxK)
    (h : Holds R t key true occ) (hsplit : ∀ i, occ i + occ' i = (t.getHashes R key).count i)
    {a b : ℕ} (ha : a < t.buckets.length ∧ occ a = 1) (hb : b < t.buckets.length ∧ occ' b = 1)
    (fuel : ℕ) : t.peel R fuel = none := by
  -- the two states between which the table swings, and the candidate each of them keeps
  let J : List ℕ → IBLT → Prop := fun queue u => SameShape u t ∧
    (Holds R u key true occ ∧ a ∈ queue ∨ Holds R u key false occ' ∧ b ∈ queue)
  have hstart : J ((List.range t.buckets.length).filter fun i => t.isPure R i) t := by
    refine ⟨⟨rfl, rfl, rfl⟩, .inl ⟨h, List.mem_filter.mpr ⟨List.mem_range.mpr ha.1, ?_⟩⟩⟩
    refine (h.isPure_iff ha.1 ?_).mpr ha.2
    rw [ha.2]
    decide
  have hnever := peelLoop_never (R := R) J ?_ ?_ hstart fuel [] []
  · rw [peel, hnever]
  · rintro u ⟨-, ⟨-, hmem⟩ | ⟨-, hmem⟩⟩
    · cases hmem
    · cases hmem
  · rintro idx queue u ⟨hshape, hstate⟩
    rw [← hshape.length] at ha hb
    rw [← hshape.k] at hk
    simp only [← hshape.getHashes] at hsplit
    rcases hstate with ⟨hu, hmem⟩ | ⟨hu, hmem⟩
    · obtain ⟨hshape', hnext⟩ := hu.turn hk hsplit ha hb hmem
      exact ⟨hshape'.trans hshape, hnext⟩
    · obtain ⟨hshape', hnext⟩ := hu.turn hk (fun i => (add_comm _ _).trans (hsplit i)) hb ha hmem
      exact ⟨hshape'.trans hshape, hnext.symm⟩

/-- The table with `occ i` occurrences of a key in bucket `i` and nothing else. -/
def partialTable (R : Runtime) (n k : ℕ) (seed : Seed) (key : UInt64) (occ : ℕ → ℕ) : IBLT :=
  ⟨(List.range n).map fun i => occ i • ⟨1, key, R.maphash seed (putLE 8 key.toNat)⟩, k, seed⟩

theorem holds_partialTable (n k : ℕ) (seed : Seed) (key : UInt64) (occ : ℕ → ℕ) :
    Holds R (partialTable R n k seed key occ) key true occ := by
  intro i hi
  rw [partialTable, List.length_map, List.length_range] at hi
  rw [bucket, partialTable, List.getD_eq_getElem?_getD, List.getElem?_map, List.getElem?_range hi]
  rfl

def blank (n k : ℕ) (seed : Seed) : IBLT := ⟨List.replicate n 0, k, seed⟩

theorem SameShape.length_blank {n k : ℕ} {seed : Seed} (h : SameShape t (blank n k seed)) :
    t.buckets.length = n := by
  rw [h.length, blank, List.length_replicate]

theorem sameShape_partialTable (n k : ℕ) (seed : Seed) (key : UInt64) (occ : ℕ → ℕ) :
    SameShape (partialTable R n k seed key occ) (blank n k seed) := by
  refine ⟨?_, rfl, rfl⟩
  rw [partialTable, blank, List.length_map, List.length_range, List.length_replicate]

theorem toNat_ofNat_of_le_max (hn : n ≤ maxIBLTBuckets) : (UInt64.ofNat n).toNat = n := by
  have hmax : maxIBLTBuckets < 2 ^ 64 := by decide
  exact UInt64.toNat_ofNat_of_lt' (by simpa using hn.trans_lt hmax)

theorem lt_of_mem_getHashes (hpos : 0 < t.buckets.length) (hn : t.buckets.length ≤ maxIBLTBuckets)
    (hi : i ∈ t.getHashes R key) : i < t.buckets.length := by
  obtain ⟨m, -, rfl⟩ := List.mem_map.mp hi
  rw [UInt64.toNat_mod, toNat_ofNat_of_le_max hn]
  exact Nat.mod_lt _ hpos

variable (R) in
/-- Some key has two different buckets. -/
def Spreads (n k : ℕ) (seed : Seed) : Prop :=
  ∃ key, ∃ i ∈ (blank n k seed).getHashes R key, ∃ j ∈ (blank n k seed).getHashes R key, i ≠ j

/-- An even number of buckets spreads every key: the stride of the double hashing is odd. -/
theorem spreads_of_even (hn : n ≤ maxIBLTBuckets) (heven : n % 2 = 0) (hk : 2 ≤ k)
    (seed : Seed) : Spreads R n k seed := by
  have hlen : (blank n k seed).buckets.length = n := List.length_replicate
  set h1 := (blank n k seed).hashKey R 0 with hh1
  set h2 := (h1 >>> 32) ||| 1 with hh2
  have hodd : h2.toNat % 2 = 1 := or_one_odd _
  have hmem : ∀ m < k, ((h1 + UInt64.ofNat m * h2) % UInt64.ofNat n).toNat ∈ (blank n k seed).getHashes R 0 := by
    intro m hm
    rw [getHashes, hlen]
    exact List.mem_map.mpr ⟨m, List.mem_range.mpr hm, rfl⟩
  refine ⟨0, _, hmem 0 (by omega), _, hmem 1 (by omega), ?_⟩
  rw [UInt64.toNat_mod, UInt64.toNat_mod, toNat_ofNat_of_le_max hn, UInt64.toNat_add, UInt64.toNat_add]
  have hzero : (UInt64.ofNat 0 * h2).toNat = 0 := by simp
  have hone : (UInt64.ofNat 1 * h2).toNat = h2.toNat := by simp
  rw [hzero, hone]
  intro heq
  have hparity : ∀ x, x % n % 2 = x % 2 := fun x => Nat.mod_mod_of_dvd x (Nat.dvd_of_mod_eq_zero heven)
  have hmod := congrArg (· % 2) heq
  simp only [hparity] at hmod
  omega

/-- A configuration with two hashes, or one that spreads a key, has a table that is never peeled. -/
theorem exists_never_peeled (hn : 0 < n) (hmax : n ≤ maxIBLTBuckets) (hk : k ≤ ibltMaxK)
    (seed : Seed) (h : k = 2 ∨ Spreads R n k seed) :
    ∃ t : IBLT, SameShape t (blank n k seed) ∧ ∀ fuel, t.peel R fuel = none := by
  have hlen : (blank n k seed).buckets.length = n := List.length_replicate
  -- it is enough to place a key so that one bucket has it once and one lacks it once
  have hplace : ∀ key, ∀ occ : ℕ → ℕ, (∀ i, occ i ≤ ((blank n k seed).getHashes R key).count i) →
      ∀ a ∈ (blank n k seed).getHashes R key, occ a = 1 → ∀ b ∈ (blank n k seed).getHashes R key,
        ((blank n k seed).getHashes R key).count b = occ b + 1 →
      ∃ t : IBLT, SameShape t (blank n k seed) ∧ ∀ fuel, t.peel R fuel = none := by
    intro key occ hle a ha hocca b hb hoccb
    have hshape := sameShape_partialTable (R := R) n k seed key occ
    have hlt : ∀ i ∈ (blank n k seed).getHashes R key, i < (partialTable R n k seed key occ).buckets.length := by
      intro i hi
      rw [hshape.length]
      exact lt_of_mem_getHashes (by rwa [hlen]) (by rwa [hlen]) hi
    have hsplit : ∀ i, occ i + (((blank n k seed).getHashes R key).count i - occ i) =
        ((partialTable R n k seed key occ).getHashes R key).count i := by
      intro i
      rw [hshape.getHashes]
      exact Nat.add_sub_cancel' (hle i)
    refine ⟨_, hshape, not_halts_of_holds hk (holds_partialTable n k seed key occ) hsplit ⟨hlt a ha, hocca⟩
      ⟨hlt b hb, ?_⟩⟩
    omega
  have hspread : Spreads R n k seed → ∃ t : IBLT, SameShape t (blank n k seed) ∧ ∀ fuel, t.peel R fuel = none := by
    rintro ⟨key, a, ha, b, hb, hne⟩
    have hposa := List.count_pos_iff.mpr ha
    have hposb := List.count_pos_iff.mpr hb
    refine hplace key (fun i => if i = a then 1
      else if i = b then ((blank n k seed).getHashes R key).count b - 1 else 0) ?_ a ha (if_pos rfl) b hb ?_
    · intro i
      split
      · next h => rwa [h]
      · split
        · next h =>
          rw [h]
          exact Nat.sub_le _ _
        · exact Nat.zero_le _
    · rw [if_neg (Ne.symm hne), if_pos rfl]
      omega
  rcases h with rfl | h
  · obtain ⟨x, y, hxy⟩ : ∃ x y, (blank n 2 seed).getHashes R 0 = [x, y] := ⟨_, _, rfl⟩
    by_cases hne : x = y
    · subst hne
      have hmem : x ∈ (blank n 2 seed).getHashes R 0 := by
        rw [hxy]
        exact List.mem_cons_self
      refine hplace 0 (fun i => if i = x then 1 else 0) ?_ x hmem (if_pos rfl) x hmem ?_
      · intro i
        split
        · next h =>
          rw [h]
          exact List.count_pos_iff.mpr hmem
        · exact Nat.zero_le _
      · rw [hxy, if_pos rfl]
        simp
    · refine hspread ⟨0, x, ?_, y, ?_, hne⟩
      · rw [hxy]
        exact List.mem_cons_self
      · rw [hxy]
        exact List.mem_cons_of_mem _ List.mem_cons_self
  · exact hspread h

/-! ### Differences of sketches -/

variable (R) in
/-- The sketch of a list of keys, made by `Insert`. -/
def sketchOf (n k : ℕ) (seed : Seed) (keys : List UInt64) : IBLT := keys.foldl (insert R) (blank n k seed)

variable (R) in
/-- A pure bucket of any part of the difference of two sketches names a key of the side it is on. -/
def Truthful (n k : ℕ) (seed : Seed) (A B : List UInt64) : Prop :=
  ∀ A' B' diff, A'.Subperm A → B'.Subperm B →
    (sketchOf R n k seed A').subtract (sketchOf R n k seed B') = some diff → ∀ idx, diff.isPure R idx →
      if 0 < (diff.bucket idx).count then (diff.bucket idx).keySum ∈ A' else (diff.bucket idx).keySum ∈ B'

variable (R) in
/-- What a list of keys adds to bucket `i`. -/
def tally (t : IBLT) (keys : List UInt64) (i : ℕ) : Bucket :=
  (keys.map fun key => (t.getHashes R key).count i • t.unit R key).sum

theorem tally_erase (t : IBLT) {keys : List UInt64} (h : key ∈ keys) (i : ℕ) :
    tally R t keys i = (t.getHashes R key).count i • t.unit R key + tally R t (keys.erase key) i := by
  have hperm := (List.perm_cons_erase h).map fun key => (t.getHashes R key).count i • t.unit R key
  rw [tally, hperm.sum_eq, List.map_cons, List.sum_cons]
  rfl

theorem insert_buckets (t : IBLT) (key : UInt64) :
    SameShape (t.insert R key) t ∧ ∀ i < t.buckets.length,
      (t.insert R key).bucket i = t.bucket i + (t.getHashes R key).count i • t.unit R key :=
  ⟨⟨length_foldl_modify _ _ _, rfl, rfl⟩, fun _ hi => getD_foldl_modify_add (t.unit R key) _ _ hi⟩

theorem sketchOf_buckets (n k : ℕ) (seed : Seed) (keys : List UInt64) :
    SameShape (sketchOf R n k seed keys) (blank n k seed) ∧
      ∀ i < n, (sketchOf R n k seed keys).bucket i = tally R (blank n k seed) keys i := by
  induction keys using List.reverseRecOn with
  | nil =>
    refine ⟨⟨rfl, rfl, rfl⟩, fun i hi => ?_⟩
    simp [sketchOf, blank, bucket, tally, hi]
  | append_singleton keys key ih =>
    obtain ⟨hshape, hbucket⟩ := ih
    obtain ⟨hshape', hbucket'⟩ := insert_buckets (R := R) (sketchOf R n k seed keys) key
    have hfold : sketchOf R n k seed (keys ++ [key]) = (sketchOf R n k seed keys).insert R key := by
      rw [sketchOf, List.foldl_append]
      rfl
    rw [hfold]
    refine ⟨hshape'.trans hshape, fun i hi => ?_⟩
    rw [hbucket' i (by rwa [hshape.length_blank]), hbucket i hi, hshape.getHashes,
      hshape.unit, tally, tally, List.map_append, List.sum_append]
    simp

theorem subtract_buckets {diff : IBLT} (h : t.subtract u = some diff) :
    SameShape diff t ∧ SameShape diff { u with seed := t.seed } ∧
      ∀ i < t.buckets.length, diff.bucket i = t.bucket i - u.bucket i := by
  rw [subtract] at h
  split_ifs at h with hne
  rw [not_or, not_not, not_not] at hne
  cases h
  refine ⟨⟨?_, rfl, rfl⟩, ⟨?_, hne.2, rfl⟩, fun i hi => ?_⟩
  · rw [List.length_zipWith, ← hne.1, Nat.min_self]
  · rw [List.length_zipWith, hne.1, Nat.min_self]
  · have hi' : i < u.buckets.length := hne.1 ▸ hi
    simp [bucket, List.getD_eq_getElem?_getD, List.getElem?_zipWith, List.getElem?_eq_getElem hi,
      List.getElem?_eq_getElem hi']

/-- The difference of the sketches of two lists of keys, by its buckets. -/
theorem subtract_sketchOf (n k : ℕ) (seed : Seed) (A B : List UInt64) :
    ∃ diff, (sketchOf R n k seed A).subtract (sketchOf R n k seed B) = some diff ∧
      SameShape diff (blank n k seed) ∧
      ∀ i < n, diff.bucket i = tally R (blank n k seed) A i - tally R (blank n k seed) B i := by
  obtain ⟨hA, hAb⟩ := sketchOf_buckets (R := R) n k seed A
  obtain ⟨hB, hBb⟩ := sketchOf_buckets (R := R) n k seed B
  have hsub : ∃ diff, (sketchOf R n k seed A).subtract (sketchOf R n k seed B) = some diff := by
    rw [subtract, if_neg (by rw [hA.length, hB.length, hA.k, hB.k]; simp)]
    exact ⟨_, rfl⟩
  obtain ⟨diff, hdiff⟩ := hsub
  obtain ⟨hshape, -, hbucket⟩ := subtract_buckets hdiff
  refine ⟨diff, hdiff, hshape.trans hA, fun i hi => ?_⟩
  rw [hbucket i (by rwa [hA.length_blank]), hAb i hi, hBb i hi]

/-- **The difference of two sketches is peeled**, for every table size and hash count, if its pure buckets
tell the truth: every listed key leaves the difference. -/
theorem halts_of_truthful {seed : Seed} {A B : List UInt64}
    (ht : (sketchOf R n k seed A).subtract (sketchOf R n k seed B) = some t)
    (htruth : Truthful R n k seed A B) : t.Halts R := by
  let base := blank n k seed
  let I : ℕ → List ℕ → IBLT → Prop := fun N queue u => SameShape u base ∧
    ∃ A' B', A'.Subperm A ∧ B'.Subperm B ∧ (∀ i < n, u.bucket i = tally R base A' i - tally R base B' i) ∧
      queue.length + k * (A'.length + B'.length) ≤ N
  have hbase : base.buckets.length = n := List.length_replicate
  obtain ⟨diff, hdiff, hshape, hbucket⟩ := subtract_sketchOf (R := R) n k seed A B
  obtain rfl : diff = t := Option.some.inj (hdiff.symm.trans ht)
  refine halts_of_budget I ?_ ?_ ⟨hshape, A, B, List.Subperm.refl A, List.Subperm.refl B, hbucket, le_refl _⟩
  · rintro queue u ⟨-, A', B', -, -, -, hle⟩
    exact List.eq_nil_of_length_eq_zero (by omega)
  · rintro N idx queue u ⟨hu, A', B', hA, hB, hub, hle⟩
    rw [List.length_cons] at hle
    by_cases hpure : u.isPure R idx = true
    · have hlt : idx < n := by
        rw [← hbase, ← hu.length]
        exact lt_of_isPure hpure
      -- the bucket is one of the difference of what is left, and so names one of these keys
      obtain ⟨left, hleft, hleftShape, hleftBucket⟩ := subtract_sketchOf (R := R) n k seed A' B'
      have hsame : left.bucket idx = u.bucket idx := (hleftBucket idx hlt).trans (hub idx hlt).symm
      have hnamed := htruth A' B' left hA hB hleft idx
        (((hleftShape.trans ⟨hu.length.symm, hu.k.symm, hu.seed.symm⟩).isPure hsame).trans hpure)
      rw [hsame] at hnamed
      rw [turn, if_pos hpure]
      set key := (u.bucket idx).keySum with hkey
      obtain ⟨hnext, hqueue, hnextBucket⟩ := unpeel_buckets (R := R) u queue key (0 < (u.bucket idx).count)
      rw [hu.k] at hqueue
      refine ⟨hnext.trans hu, ?_⟩
      have hbuckets : ∀ i < n, (u.unpeel R queue key (0 < (u.bucket idx).count)).1.bucket i =
          tally R base A' i - tally R base B' i + (base.getHashes R key).count i •
            if decide (0 < (u.bucket idx).count) = true then -base.unit R key else base.unit R key := by
        intro i hi
        rw [hnextBucket i (by rwa [hu.length, hbase]), hub i hi, hu.getHashes, hu.unit]
      by_cases hpos : 0 < (u.bucket idx).count
      · rw [if_pos hpos] at hnamed
        refine ⟨A'.erase key, B', (List.erase_sublist).subperm.trans hA, hB, fun i hi => ?_, ?_⟩
        · rw [hbuckets i hi, if_pos (decide_eq_true hpos), tally_erase base hnamed, smul_neg]
          abel
        · have hshort := List.length_erase_of_mem hnamed
          have hne := List.length_pos_of_mem hnamed
          have hmul : k * (A'.length + B'.length) = k * ((A'.erase key).length + B'.length) + k := by
            rw [hshort, ← Nat.mul_succ]
            congr 1
            omega
          have hk : base.k = k := rfl
          dsimp only
          omega
      · rw [if_neg hpos] at hnamed
        refine ⟨A', B'.erase key, hA, (List.erase_sublist).subperm.trans hB, fun i hi => ?_, ?_⟩
        · rw [hbuckets i hi, if_neg (by rw [decide_eq_true_iff]; exact hpos), tally_erase base hnamed]
          abel
        · have hshort := List.length_erase_of_mem hnamed
          have hne := List.length_pos_of_mem hnamed
          have hmul : k * (A'.length + B'.length) = k * (A'.length + (B'.erase key).length) + k := by
            rw [hshort, ← Nat.mul_succ]
            congr 1
            omega
          have hk : base.k = k := rfl
          dsimp only
          omega
    · rw [turn, if_neg hpure]
      refine ⟨hu, A', B', hA, hB, hub, ?_⟩
      dsimp only
      omega

theorem truthful_singleton (n : ℕ) (hk : k ≤ ibltMaxK) (seed : Seed) (key : UInt64) :
    Truthful R n k seed [key] [] := by
  intro A' B' diff hA hB hdiff idx hpure
  obtain rfl : B' = [] := List.subperm_nil.mp hB
  obtain ⟨diff', hdiff', hshape, hbucket⟩ := subtract_sketchOf (R := R) n k seed A' []
  obtain rfl : diff' = diff := Option.some.inj (hdiff'.symm.trans hdiff)
  have hlen := hshape.length_blank
  have hcount : ∀ i, (diff'.getHashes R key).count i ≤ ibltMaxK := by
    intro i
    refine List.count_le_length.trans ?_
    rw [getHashes, List.length_map, List.length_range, hshape.k]
    exact hk
  -- the part is empty, or it is the key
  have hpart : A' = [] ∨ A' = [key] := by
    have hle := hA.length_le
    rcases A' with _ | ⟨x, _ | ⟨y, A'⟩⟩
    · exact .inl rfl
    · exact .inr (by rw [List.mem_singleton.mp (hA.subset List.mem_cons_self)])
    · simp at hle
  have hholds : ∃ occ : ℕ → ℕ, Holds R diff' key true occ ∧ (∀ i, occ i ≤ ibltMaxK) ∧
      (A' = [] → ∀ i, occ i = 0) := by
    rcases hpart with rfl | rfl
    · refine ⟨fun _ => 0, fun i hi => ?_, fun _ => Nat.zero_le _, fun _ _ => rfl⟩
      rw [hbucket i (hlen ▸ hi), sub_self, zero_nsmul, if_pos rfl]
    · refine ⟨fun i => (diff'.getHashes R key).count i, fun i hi => ?_, hcount, fun h => by cases h⟩
      rw [hbucket i (hlen ▸ hi), tally, tally, hshape.getHashes, hshape.unit, if_pos rfl]
      simp
  obtain ⟨occ, hholds, hocc, hempty⟩ := hholds
  have hlt := lt_of_isPure hpure
  have hone := (hholds.isPure_iff hlt (hocc idx)).mp hpure
  have hunit := hholds idx hlt
  rw [hone, one_nsmul, if_pos rfl] at hunit
  rcases hpart with rfl | rfl
  · rw [hempty rfl idx] at hone
    cases hone
  · have hpos : 0 < (unit R diff' key).count := by
      show (0 : Int32) < 1
      decide
    rw [hunit, if_pos hpos]
    exact List.mem_cons_self

/-! ### The tables of the wire -/

/-- A table that was read from the wire, or the difference of two such tables. -/
def FromWire (t : IBLT) : Prop :=
  (∃ wire, unmarshalIBLT wire = .ok t) ∨
    ∃ wire wire' t₁ t₂, unmarshalIBLT wire = .ok t₁ ∧ unmarshalIBLT wire' = .ok t₂ ∧ t₁.subtract t₂ = some t

theorem FromWire.accepted (h : FromWire t) : t.Accepted := by
  rcases h with ⟨wire, hwire⟩ | ⟨wire, -, t₁, t₂, hwire, -, hdiff⟩
  · exact accepted_iff.mp ⟨wire, hwire⟩
  · exact (accepted_iff.mp ⟨wire, hwire⟩).subtract hdiff

/-- **When peeling ends.**  For a number of buckets, a number of hashes and a seed that the decoder
accepts, every table from the wire is peeled exactly if there is one hash, or no bucket, or one bucket
and not two hashes; configurations with an odd number of at least three buckets that keep all hashes of
every key in one bucket are left out.  And whatever the configuration, the difference of two
sketches whose pure buckets tell the truth is peeled. -/
theorem peel_halts_iff (R : Runtime) :
    (∀ (n k : ℕ) (seed : Seed), n ≤ maxIBLTBuckets → 0 < k → k ≤ ibltMaxK → seed ≠ 0 →
      (n % 2 = 0 ∨ n = 1 ∨ k ≤ 2 ∨ Spreads R n k seed) →
      ((∀ t : IBLT, FromWire t → t.buckets.length = n → t.k = k → t.seed = seed → t.Halts R) ↔
        k = 1 ∨ n = 0 ∨ n = 1 ∧ k ≠ 2)) ∧
    ∀ (n k : ℕ) (seed : Seed) (A B : List UInt64) (t : IBLT),
      (sketchOf R n k seed A).subtract (sketchOf R n k seed B) = some t → Truthful R n k seed A B →
        t.Halts R := by
  refine ⟨fun n k seed hn hk hmax hseed hconf => ⟨fun hall => ?_, fun hcond t ht htn htk _ => ?_⟩,
    fun n k seed A B t ht htruth => halts_of_truthful ht htruth⟩
  · by_contra hnot
    rw [not_or, not_or, not_and, not_not] at hnot
    obtain ⟨hk1, hn0, hn1⟩ := hnot
    have hbad : k = 2 ∨ Spreads R n k seed := by
      by_cases hk2 : k = 2
      · exact .inl hk2
      refine .inr ?_
      rcases hconf with heven | hone | htwo | hspread
      · exact spreads_of_even hn heven (by omega) seed
      · exact absurd (hn1 hone) hk2
      · omega
      · exact hspread
    obtain ⟨t, hshape, hnever⟩ := exists_never_peeled (Nat.pos_of_ne_zero hn0) hn hmax seed hbad
    have hlen := hshape.length_blank
    have hacc : t.Accepted := ⟨hshape.k ▸ hk, hshape.k ▸ hmax, hlen ▸ hn⟩
    obtain ⟨fuel, out, hout⟩ := hall t (.inl (accepted_iff.mpr hacc)) hlen hshape.k hshape.seed
    cases (hnever fuel).symm.trans hout
  · have hacc := ht.accepted
    by_cases hk1 : t.k = 1
    · exact halts_of_one_hash hk1
    rcases hcond with hone | hzero | ⟨hone, hne⟩
    · exact absurd (htk.trans hone) hk1
    · refine ⟨0, ([], [], t.buckets.any (· ≠ 0)), ?_⟩
      rw [peel, htn, hzero]
      rfl
    · exact halts_of_one_bucket (htn.trans hone) (by omega) hacc.k_le

/-- The configuration of a digest has a table that is not peeled; the sketch of one key is. -/
theorem peel_halts_iff_on_digests :
    (¬ ∀ t : IBLT, FromWire t → t.buckets.length = 1024 → t.k = 4 → t.seed = 7 → t.Halts Runtime.sample) ∧
    ∃ t, (sketchOf Runtime.sample 1024 4 7 [5]).subtract (sketchOf Runtime.sample 1024 4 7 []) = some t ∧
      t.Halts Runtime.sample := by
  obtain ⟨hconf, hsketch⟩ := peel_halts_iff Runtime.sample
  constructor
  · intro hall
    have hcond := (hconf 1024 4 7 (by decide) (by decide) (by decide) (by decide) (.inl (by decide))).mp hall
    exact absurd hcond (by decide)
  · obtain ⟨t, ht, -⟩ := subtract_sketchOf (R := Runtime.sample) 1024 4 7 [5] []
    exact ⟨t, ht, hsketch 1024 4 7 [5] [] t ht (truthful_singleton 1024 (by decide) 7 5)⟩

/-- Whatever the hash function is, there are bytes that decode to a table of the size of a digest on which
the peel does not return. -/
theorem exists_digest_never_peeled (R : Runtime) : ∃ wire t, unmarshalIBLT wire = .ok t ∧ t.buckets.length = 1024 ∧
    t.k = 4 ∧ t.seed = 7 ∧ ∀ fuel, t.peel R fuel = none := by
  have hspread : Spreads R 1024 4 7 := spreads_of_even (by decide) (by decide) (by decide) 7
  obtain ⟨t, hshape, hnever⟩ := exists_never_peeled (by decide) (by decide) (by decide) 7 (.inr hspread)
  have hlen := hshape.length_blank
  have hk : t.k = 4 := hshape.k
  have hacc : t.Accepted := ⟨by rw [hk]; decide, by rw [hk]; decide, by rw [hlen]; decide⟩
  obtain ⟨wire, hwire⟩ := accepted_iff.mpr hacc
  exact ⟨wire, t, hwire, hlen, hk, hshape.seed, hnever⟩

theorem digest_never_peeled : ∃ wire t, unmarshalIBLT wire = .ok t ∧ t.buckets.length = 1024 ∧ t.k = 4 ∧ t.seed = 7 ∧
    ∀ fuel, t.peel .sample fuel = none := exists_digest_never_peeled .sample

end

end IBLT

end Sovereign.Sync

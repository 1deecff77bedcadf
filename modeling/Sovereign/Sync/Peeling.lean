import Sovereign.Sync.Iblt

/-!
# The table of a digest

The configuration of a digest is fixed in `GenerateDigestWithSeed`: 1024 buckets and four
hashes, whose indices are distinct because the stride of the double hashing is odd
(`getHashes_digestTable`).  The writes of `Insert` and of the peel are a change of the buckets at a
list of indices.
-/

namespace Sovereign.Sync

open Lib

variable (R : Runtime)

namespace IBLT

def digestTable (seed : Seed) : IBLT := ⟨List.replicate 1024 0, 4, seed⟩

variable {R}

theorem or_one_odd (x : UInt64) : (x ||| 1).toNat % 2 = 1 := by
  rw [UInt64.toNat_or]
  simp [Nat.or_mod_two_eq_one]

/-- The four indices are below 1024 and distinct. -/
theorem getHashes_digestTable (seed : Seed) (key : UInt64) :
    ((digestTable seed).getHashes R key).Nodup ∧
      ∀ i ∈ (digestTable seed).getHashes R key, i < 1024 := by
  have hget : ∀ h1 h2 : UInt64, ∀ i < 4,
      ((h1 + UInt64.ofNat i * h2) % UInt64.ofNat 1024).toNat = (h1.toNat + i * h2.toNat) % 1024 := by
    intro h1 h2 i hi
    interval_cases i <;> simp
  have hodd := or_one_odd ((digestTable seed).hashKey R key >>> 32)
  have hlength : (digestTable seed).buckets.length = 1024 := List.length_replicate
  rw [IBLT.getHashes, hlength, show (digestTable seed).k = 4 from rfl]
  constructor
  · refine List.Nodup.map_on (fun i hi j hj hij => ?_) List.nodup_range
    rw [List.mem_range] at hi hj
    rw [hget _ _ i hi, hget _ _ j hj] at hij
    interval_cases i <;> interval_cases j <;> omega
  · intro i hi
    obtain ⟨j, hj, rfl⟩ := List.mem_map.mp hi
    rw [hget _ _ j (List.mem_range.mp hj)]
    exact Nat.mod_lt _ (by decide)

theorem one_ne_neg_one : (1 : Int32) ≠ -1 := by decide

/-! ### Writing keys -/

theorem length_foldl_modify {α : Type*} (f : α → α) (idxs : List ℕ) (bs : List α) :
    (idxs.foldl (fun bs i => bs.modify i f) bs).length = bs.length := by
  induction idxs generalizing bs with
  | nil => rfl
  | cons i idxs ih => rw [List.foldl_cons, ih, List.length_modify]

theorem put_eq (b : Bucket) (key hash : UInt64) : b.put key hash = b + ⟨1, key, hash⟩ := rfl

theorem take_eq (b : Bucket) (key hash : UInt64) : b.take key hash = b + -⟨1, key, hash⟩ := by
  rw [← sub_eq_add_neg]
  rfl

variable (R) in
/-- What the inner loop of the peel writes into a bucket of the key. -/
def stroke (t : IBLT) (key : UInt64) (positive : Bool) (b : Bucket) : Bucket :=
  if positive then b.take key (t.hashKey R key) else b.put key (t.hashKey R key)

variable (R) in
/-- One pass of the inner loop: a bucket is written, and queued if it has become pure. -/
def strike {Q : Type} (push : Q → ℕ → Q) (f : Bucket → Bucket) (acc : IBLT × Q) (idx : ℕ) : IBLT × Q :=
  let t' : IBLT := { acc.1 with buckets := acc.1.buckets.modify idx f }
  (t', if t'.isPure R idx then push acc.2 idx else acc.2)

def enqueue (queue : List ℕ) (idx : ℕ) : List ℕ := queue ++ [idx]

theorem unpeel_eq_foldl (t : IBLT) (queue : List ℕ) (key : UInt64) (positive : Bool) :
    t.unpeel R queue key positive =
      (t.getHashes R key).foldl (strike R enqueue (stroke R t key positive)) (t, queue) := rfl

theorem foldl_strike (f : Bucket → Bucket) (idxs : List ℕ) (t : IBLT) (queue : List ℕ) :
    let out := idxs.foldl (strike R enqueue f) (t, queue)
    out.1 = { t with buckets := idxs.foldl (fun bs i => bs.modify i f) t.buckets } ∧
      out.2.length ≤ queue.length + idxs.length := by
  induction idxs generalizing t queue with
  | nil => exact ⟨rfl, by simp⟩
  | cons i idxs ih =>
    obtain ⟨h1, h2⟩ := ih { t with buckets := t.buckets.modify i f }
      (if ({ t with buckets := t.buckets.modify i f } : IBLT).isPure R i then enqueue queue i else queue)
    refine ⟨h1, h2.trans ?_⟩
    rw [List.length_cons]
    split
    · rw [enqueue, List.length_append, List.length_singleton]
      omega
    · omega

theorem unpeel_table (t : IBLT) (queue : List ℕ) (key : UInt64) (positive : Bool) :
    (t.unpeel R queue key positive).1 = { t with
      buckets := (t.getHashes R key).foldl (fun bs i => bs.modify i (stroke R t key positive)) t.buckets } :=
  (foldl_strike _ _ t queue).1

end IBLT

end Sovereign.Sync

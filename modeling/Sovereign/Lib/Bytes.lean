import Mathlib

/-!
# Byte strings, fixed-size arrays and positional number encodings

The wire and file formats of a system are lists of octets.  This module collects what every codec
proof needs of them:

* `putBE w n` / `getBE` — the `w`-byte big-endian encoding of a number and its reading, with both
  round trips (`getBE_putBE`, `putBE_getBE`);
* `putLE` / `getLE` — the little-endian pair, by reversal;
* `FixedBytes n` — an array of exactly `n` octets, the length carried as a field, so that a value of
  another length cannot be built; `FixedBytes.copyFrom` is a copy into a zeroed array.

Machine words are encoded through their `toNat`; `getU64_putU64` and its siblings give the
word back.  `slice` is the field access of a decoder, with the lemmas that find a field in a
concatenation.
-/

namespace Sovereign.Lib

abbrev Bytes := List UInt8

/-! ### Big-endian numbers -/

/-- The low `w` base-256 digits of `n`, most significant first. -/
def putBE : ℕ → ℕ → Bytes
  | 0, _ => []
  | w + 1, n => putBE w (n / 256) ++ [UInt8.ofNat n]

/-- The number a big-endian digit string denotes. -/
def getBE (bs : Bytes) : ℕ := bs.foldl (fun acc b => acc * 256 + b.toNat) 0

@[simp] theorem putBE_length (w n : ℕ) : (putBE w n).length = w := by
  induction w generalizing n with
  | zero => rfl
  | succ w ih => simp [putBE, ih]

@[simp] theorem getBE_nil : getBE [] = 0 := rfl

theorem getBE_snoc (bs : Bytes) (b : UInt8) : getBE (bs ++ [b]) = getBE bs * 256 + b.toNat := by
  simp [getBE]

theorem getBE_putBE (w n : ℕ) : getBE (putBE w n) = n % 256 ^ w := by
  induction w generalizing n with
  | zero => simp [putBE, Nat.mod_one]
  | succ w ih =>
    have hlow : (UInt8.ofNat n).toNat = n % 256 := by simp
    rw [putBE, getBE_snoc, ih, hlow, pow_succ, mul_comm (256 ^ w) 256, Nat.mod_mul]
    ring

variable {w : ℕ} {bs : Bytes} {n : ℕ}

theorem getBE_putBE_of_lt (h : n < 256 ^ w) : getBE (putBE w n) = n := by
  rw [getBE_putBE, Nat.mod_eq_of_lt h]

theorem getBE_lt (bs : Bytes) : getBE bs < 256 ^ bs.length := by
  induction bs using List.reverseRecOn with
  | nil => simp
  | append_singleton bs b ih =>
    have hb := b.toNat_lt
    rw [getBE_snoc, List.length_append, List.length_singleton, pow_succ]
    omega

theorem putBE_getBE (bs : Bytes) : putBE bs.length (getBE bs) = bs := by
  induction bs using List.reverseRecOn with
  | nil => rfl
  | append_singleton bs b ih =>
    have hb := b.toNat_lt
    have hdiv : (getBE bs * 256 + b.toNat) / 256 = getBE bs := by omega
    have hlow : UInt8.ofNat (getBE bs * 256 + b.toNat) = b := by
      apply UInt8.toNat_inj.mp
      simp only [UInt8.toNat_ofNat']
      omega
    rw [List.length_append, List.length_singleton, getBE_snoc, putBE, hdiv, hlow, ih]

theorem getBE_cons (b : UInt8) (bs : Bytes) :
    getBE (b :: bs) = b.toNat * 256 ^ bs.length + getBE bs := by
  induction bs using List.reverseRecOn with
  | nil => simp [getBE]
  | append_singleton bs c ih =>
    rw [← List.cons_append, getBE_snoc, getBE_snoc, ih, List.length_append, List.length_singleton,
      pow_succ]
    ring

/-! ### Little-endian numbers -/

/-- The low `w` base-256 digits of `n`, least significant first. -/
def putLE (w n : ℕ) : Bytes := (putBE w n).reverse

/-- The number a little-endian digit string denotes. -/
def getLE (bs : Bytes) : ℕ := getBE bs.reverse

@[simp] theorem putLE_length (w n : ℕ) : (putLE w n).length = w := by simp [putLE]
theorem getLE_putLE_of_lt (h : n < 256 ^ w) : getLE (putLE w n) = n := by
  simp [getLE, putLE, getBE_putBE_of_lt h]

theorem putLE_injective_of_lt {m : ℕ} (hm : m < 256 ^ w) (hn : n < 256 ^ w)
    (h : putLE w m = putLE w n) : m = n := by
  rw [← getLE_putLE_of_lt hm, ← getLE_putLE_of_lt hn, h]

theorem putLE_getLE (h : bs.length = w) : putLE w (getLE bs) = bs := by
  have hrev := putBE_getBE bs.reverse
  rw [List.length_reverse, h] at hrev
  rw [putLE, getLE, hrev, List.reverse_reverse]

theorem getLE_lt (h : bs.length = w) : getLE bs < 256 ^ w := by
  have hlt := getBE_lt bs.reverse
  rwa [List.length_reverse, h] at hlt

/-! ### Machine words -/

theorem toNat_lt_256_pow_8 (x : UInt64) : x.toNat < 256 ^ 8 := x.toNat_lt

theorem toNat_lt_256_pow_4 (x : UInt32) : x.toNat < 256 ^ 4 := x.toNat_lt

theorem toNat_lt_256_pow_2 (x : UInt16) : x.toNat < 256 ^ 2 := x.toNat_lt

def getU64 (bs : Bytes) : UInt64 := UInt64.ofNat (getBE bs)

def putU64 (x : UInt64) : Bytes := putBE 8 x.toNat

@[simp] theorem putU64_length (x : UInt64) : (putU64 x).length = 8 := putBE_length _ _

@[simp] theorem getU64_putU64 (x : UInt64) : getU64 (putU64 x) = x := by
  rw [getU64, putU64, getBE_putBE_of_lt (toNat_lt_256_pow_8 x), UInt64.ofNat_toNat]

theorem putU64_getU64 (h : bs.length = 8) : putU64 (getU64 bs) = bs := by
  have hlt := getBE_lt bs
  rw [h] at hlt
  rw [putU64, getU64, UInt64.toNat_ofNat_of_lt' hlt, ← h, putBE_getBE]

theorem putU64_injective {x y : UInt64} (h : putU64 x = putU64 y) : x = y := by
  rw [← getU64_putU64 x, ← getU64_putU64 y, h]

def getU32 (bs : Bytes) : UInt32 := UInt32.ofNat (getBE bs)

def putU32 (x : UInt32) : Bytes := putBE 4 x.toNat

@[simp] theorem putU32_length (x : UInt32) : (putU32 x).length = 4 := putBE_length _ _

@[simp] theorem getU32_putU32 (x : UInt32) : getU32 (putU32 x) = x := by
  rw [getU32, putU32, getBE_putBE_of_lt (toNat_lt_256_pow_4 x), UInt32.ofNat_toNat]

theorem putU32_getU32 (h : bs.length = 4) : putU32 (getU32 bs) = bs := by
  have hlt := getBE_lt bs
  rw [h] at hlt
  rw [putU32, getU32, UInt32.toNat_ofNat_of_lt' hlt, ← h, putBE_getBE]

theorem putU32_injective {x y : UInt32} (h : putU32 x = putU32 y) : x = y := by
  rw [← getU32_putU32 x, ← getU32_putU32 y, h]

/-! ### Fixed-size arrays -/

/-- An array of exactly `n` bytes. -/
structure FixedBytes (n : ℕ) where
  bytes : Bytes
  length_bytes : bytes.length = n
deriving DecidableEq

attribute [simp] FixedBytes.length_bytes

namespace FixedBytes

@[ext] theorem ext {a b : FixedBytes n} (h : a.bytes = b.bytes) : a = b := by
  cases a
  cases b
  simpa using h

def zero (n : ℕ) : FixedBytes n := ⟨List.replicate n 0, List.length_replicate⟩

/-- Copy a byte slice into a zeroed array: bytes beyond `n` are ignored, missing ones stay zero. -/
def copyFrom (n : ℕ) (bs : Bytes) : FixedBytes n :=
  ⟨(bs ++ List.replicate n 0).take n, by simp⟩

theorem copyFrom_bytes {bs : Bytes} (h : bs.length = n) : (copyFrom n bs).bytes = bs := by
  simp [copyFrom, ← h]

@[simp] theorem copyFrom_self (a : FixedBytes n) : copyFrom n a.bytes = a :=
  FixedBytes.ext (copyFrom_bytes a.length_bytes)

theorem bytes_injective : Function.Injective (bytes : FixedBytes n → Bytes) :=
  fun _ _ h => FixedBytes.ext h

end FixedBytes

/-! ### Slices -/

theorem take_append_len {α : Type*} {xs : List α} (h : xs.length = n) (ys : List α) :
    (xs ++ ys).take n = xs := by
  rw [← h, List.take_left]

theorem drop_append_len {α : Type*} {xs : List α} (h : xs.length = n) (ys : List α) :
    (xs ++ ys).drop n = ys := by
  rw [← h, List.drop_left]

/-- The slice `bs[off : off + len]`. -/
def slice (bs : Bytes) (off len : ℕ) : Bytes := (bs.drop off).take len

variable {len : ℕ} {bs xs : Bytes}

theorem slice_length {off : ℕ} (h : off + len ≤ bs.length) : (slice bs off len).length = len := by
  rw [slice, List.length_take, List.length_drop]
  omega

theorem slice_all (h : xs.length = len) : slice xs 0 len = xs := by
  rw [slice, List.drop_zero, ← h, List.take_length]

theorem slice_head (h : xs.length = len) (ys : Bytes) : slice (xs ++ ys) 0 len = xs := take_append_len h ys

/-- A field behind the first one, at its offset in the rest. -/
theorem slice_skip {off : ℕ} (hle : xs.length ≤ off) (ys : Bytes) (len : ℕ) :
    slice (xs ++ ys) off len = slice ys (off - xs.length) len := by
  obtain ⟨k, rfl⟩ := Nat.exists_eq_add_of_le hle
  rw [slice, ← List.drop_drop, List.drop_left, Nat.add_sub_cancel_left]
  rfl

theorem slice_one {wire : Bytes} {i : ℕ} (h : i < wire.length) : slice wire i 1 = [wire[i]] := by
  rw [slice, List.drop_eq_getElem_cons h]
  rfl

theorem slice_append (bs : Bytes) (off m n : ℕ) : slice bs off m ++ slice bs (off + m) n = slice bs off (m + n) := by
  rw [slice, slice, slice, List.take_add, List.drop_drop]

theorem flatMap_slice (bs : Bytes) (off w n : ℕ) :
    ((List.range n).flatMap fun i => slice bs (off + i * w) w) = slice bs off (n * w) := by
  induction n with
  | zero => rw [Nat.zero_mul, slice, List.take_zero, List.range_zero, List.flatMap_nil]
  | succ n ih => rw [List.range_succ, List.flatMap_append, ih, List.flatMap_singleton, slice_append, Nat.succ_mul]

/-! ### The order of byte strings -/

theorem compare_bytes_cons (a b : UInt8) (as bs : Bytes) :
    compare (a :: as) (b :: bs) = (compare a b).then (compare as bs) := by
  simp only [List.compare_eq_compareLex, List.compareLex_cons_cons]

/-- Fields of one width are compared one after the other. -/
theorem compare_append {as : Bytes} (h : as.length = bs.length) (cs ds : Bytes) :
    compare (as ++ cs) (bs ++ ds) = (compare as bs).then (compare cs ds) := by
  induction as generalizing bs with
  | nil =>
    cases bs with
    | nil => simp
    | cons b bs => cases h
  | cons a as ih =>
    cases bs with
    | nil => cases h
    | cons b bs =>
      rw [List.cons_append, List.cons_append, compare_bytes_cons, compare_bytes_cons, Ordering.then_assoc,
        ih (Nat.succ.inj h)]

theorem compare_uint8 (a b : UInt8) : compare a b = compare a.toNat b.toNat := by
  simp only [compare, compareOfLessAndEq, UInt8.lt_iff_toNat_lt, ← UInt8.toNat_inj]

theorem compare_uint64 (x y : UInt64) : compare x y = compare x.toNat y.toNat := by
  simp only [compare, compareOfLessAndEq, UInt64.lt_iff_toNat_lt, ← UInt64.toNat_inj]

/-- Numbers are compared by their leading digits first. -/
theorem compare_digits {N r s : ℕ} (hr : r < N) (hs : s < N) (x y : ℕ) :
    compare (x * N + r) (y * N + s) = (compare x y).then (compare r s) := by
  rcases lt_trichotomy x y with hlt | rfl | hgt
  · have hN := Nat.mul_le_mul_right N (Nat.succ_le_of_lt hlt)
    rw [Nat.succ_mul] at hN
    rw [Nat.compare_eq_lt.mpr hlt, Nat.compare_eq_lt.mpr (by omega)]
    rfl
  · rw [Nat.compare_eq_eq.mpr (rfl : x = x), Ordering.eq_then]
    rcases lt_trichotomy r s with h | rfl | h
    · rw [Nat.compare_eq_lt.mpr h, Nat.compare_eq_lt.mpr (by omega)]
    · rw [Nat.compare_eq_eq.mpr rfl, Nat.compare_eq_eq.mpr rfl]
    · rw [Nat.compare_eq_gt.mpr h, Nat.compare_eq_gt.mpr (by omega)]
  · have hN := Nat.mul_le_mul_right N (Nat.succ_le_of_lt hgt)
    rw [Nat.succ_mul] at hN
    rw [Nat.compare_eq_gt.mpr hgt, Nat.compare_eq_gt.mpr (by omega)]
    rfl

/-- Byte strings of one width are ordered as the numbers they write in big endian. -/
theorem compare_eq_compare_getBE {as : Bytes} (h : as.length = bs.length) :
    compare as bs = compare (getBE as) (getBE bs) := by
  induction as generalizing bs with
  | nil =>
    cases bs with
    | nil => rfl
    | cons b bs => cases h
  | cons a as ih =>
    cases bs with
    | nil => cases h
    | cons b bs =>
      have hlen : as.length = bs.length := Nat.succ.inj h
      have hb := getBE_lt bs
      rw [← hlen] at hb
      rw [compare_bytes_cons, ih hlen, getBE_cons, getBE_cons, ← hlen, compare_digits (getBE_lt as) hb,
        compare_uint8]

theorem compare_putU64 (x y : UInt64) : compare (putU64 x) (putU64 y) = compare x y := by
  rw [compare_eq_compare_getBE (by simp), putU64, putU64, getBE_putBE_of_lt (toNat_lt_256_pow_8 x),
    getBE_putBE_of_lt (toNat_lt_256_pow_8 y), compare_uint64]

end Sovereign.Lib

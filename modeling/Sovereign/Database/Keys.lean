import Sovereign.Lib.Bytes

/-!
# Object keys of the query tier

The query tier keeps its objects under three kinds of keys, all built from the first eight bytes of an
entity's hash and a first system time:

* `l0/{hex}/{time}.arrow` — `L0Flusher.UploadPartition`;
* `l1/{hex}/{time}.arrow` — `l1KeyFor`;
* `compaction/{hex}/{time}.manifest` — `manifestKeyFor`.

A key is its text.  A reader finds the objects of an entity by a prefix (`tierPrefix`), and it reads the
time back from the text (`parseFirstSysFromKey`), so what has to be known of keys is that they are
different for different parts (`objectKey_injective`), that a prefix picks out one tier and one hash
(`tierPrefix_isPrefix_iff`), and that times that are not negative are read back
(`parseFirstSysFromKey_objectKey`).
-/

namespace Sovereign.Database

open Lib

/-- An object key, as its bytes. -/
abbrev ObjectKey := Bytes

/-- The first eight bytes of an entity's hash. -/
abbrev Hash8 := FixedBytes 8

/-! ### Hexadecimal -/

def hexDigit (n : ℕ) : UInt8 := UInt8.ofNat (if n < 10 then 48 + n else 87 + n)

def hexByte (b : UInt8) : Bytes := [hexDigit (b.toNat / 16), hexDigit (b.toNat % 16)]

def hexOf8 (h : Hash8) : Bytes := h.bytes.flatMap hexByte

variable {n : ℕ} {b : UInt8} {h h' : Hash8} {d fuel : ℕ} {t' : Tier} {t : Tier}

theorem toNat_hexDigit (h : n < 16) : (hexDigit n).toNat = if n < 10 then 48 + n else 87 + n := by
  rw [hexDigit, UInt8.toNat_ofNat']
  split <;> omega

theorem hexDigit_injective {m : ℕ} (hm : m < 16) (hn : n < 16) (h : hexDigit m = hexDigit n) : m = n := by
  have hnat := congrArg UInt8.toNat h
  rw [toNat_hexDigit hm, toNat_hexDigit hn] at hnat
  split at hnat <;> split at hnat <;> omega

theorem hexByte_injective {a : UInt8} (h : hexByte a = hexByte b) : a = b := by
  simp only [hexByte, List.cons.injEq, and_true] at h
  have ha := a.toNat_lt
  have hb := b.toNat_lt
  have hhigh := hexDigit_injective (by omega) (by omega) h.1
  have hlow := hexDigit_injective (by omega) (by omega) h.2
  exact UInt8.toNat_inj.mp (by omega)

theorem flatMap_hexByte_injective {as bs : Bytes} (h : as.flatMap hexByte = bs.flatMap hexByte) : as = bs := by
  induction as generalizing bs with
  | nil =>
    cases bs with
    | nil => rfl
    | cons b bs => simp [hexByte] at h
  | cons a as ih =>
    cases bs with
    | nil => simp [hexByte] at h
    | cons b bs =>
      simp only [List.flatMap_cons] at h
      obtain ⟨hhead, htail⟩ := List.append_inj h rfl
      rw [hexByte_injective hhead, ih htail]

theorem hexOf8_injective (heq : hexOf8 h = hexOf8 h') : h = h' :=
  FixedBytes.ext (flatMap_hexByte_injective heq)

@[simp] theorem length_hexOf8 (h : Hash8) : (hexOf8 h).length = 16 := by
  simp [hexOf8, List.length_flatMap, hexByte, h.length_bytes]

/-! ### Decimal -/

def digit (d : ℕ) : UInt8 := UInt8.ofNat (48 + d)

/-- The decimal digits of a number with at most `fuel` of them. -/
def decimalDigits : ℕ → ℕ → Bytes
  | 0, _ => []
  | fuel + 1, n => if n < 10 then [digit n] else decimalDigits fuel (n / 10) ++ [digit (n % 10)]

/-- `strconv.FormatInt(n, 10)`: an `int64` has at most nineteen digits. -/
def formatInt (n : Int64) : Bytes :=
  if n < 0 then 45 :: decimalDigits 20 n.toInt.natAbs else decimalDigits 20 n.toInt.natAbs

def parseDigit (acc : Option ℕ) (b : UInt8) : Option ℕ :=
  acc.bind fun n => if 48 ≤ b ∧ b ≤ 57 then some (n * 10 + (b.toNat - 48)) else none

/-- The value of a non-empty row of digits. -/
def parseDigits (bs : Bytes) : Option ℕ := if bs.isEmpty then none else bs.foldl parseDigit (some 0)

def splitSign : Bytes → Bool × Bytes
  | [] => (false, [])
  | b :: bs => if b = 45 then (true, bs) else if b = 43 then (false, bs) else (false, b :: bs)

def parseInt (bs : Bytes) : Option Int64 :=
  match parseDigits (splitSign bs).2 with
  | none => none
  | some n =>
    if (splitSign bs).1 then if n ≤ 2 ^ 63 then some (Int64.ofInt (-n)) else none
    else if n < 2 ^ 63 then some (Int64.ofNat n) else none

theorem digit_isDigit (h : d < 10) : 48 ≤ digit d ∧ digit d ≤ 57 := by
  interval_cases d <;> decide

theorem toNat_digit (h : d < 10) : (digit d).toNat - 48 = d := by
  rw [digit, UInt8.toNat_ofNat']
  omega

theorem parseDigit_digit (h : d < 10) (n : ℕ) : parseDigit (some n) (digit d) = some (n * 10 + d) := by
  simp [parseDigit, digit_isDigit h, toNat_digit h]

theorem mem_decimalDigits (h : b ∈ decimalDigits fuel n) : 48 ≤ b ∧ b ≤ 57 := by
  induction fuel generalizing n with
  | zero => cases h
  | succ fuel ih =>
    rw [decimalDigits] at h
    split at h
    · next hlt =>
      rw [List.mem_singleton] at h
      exact h ▸ digit_isDigit hlt
    · rcases List.mem_append.mp h with h | h
      · exact ih h
      · rw [List.mem_singleton] at h
        exact h ▸ digit_isDigit (Nat.mod_lt _ (by decide))

theorem decimalDigits_ne_nil (fuel n : ℕ) : decimalDigits (fuel + 1) n ≠ [] := by
  rw [decimalDigits]
  split <;> simp

theorem foldl_decimalDigits (h : n < 10 ^ (fuel + 1)) :
    (decimalDigits (fuel + 1) n).foldl parseDigit (some 0) = some n := by
  induction fuel generalizing n with
  | zero =>
    have hlt : n < 10 := by simpa using h
    rw [decimalDigits, if_pos hlt, List.foldl_cons, List.foldl_nil, parseDigit_digit hlt]
    simp
  | succ fuel ih =>
    rw [decimalDigits]
    split
    · next hlt =>
      rw [List.foldl_cons, List.foldl_nil, parseDigit_digit hlt]
      simp
    · have hdiv : n / 10 < 10 ^ (fuel + 1) := by
        rw [pow_succ] at h
        exact Nat.div_lt_of_lt_mul (by omega)
      rw [List.foldl_append, ih hdiv, List.foldl_cons, List.foldl_nil,
        parseDigit_digit (Nat.mod_lt _ (by decide))]
      congr 1
      omega

theorem parseDigits_decimalDigits (h : n < 10 ^ (fuel + 1)) :
    parseDigits (decimalDigits (fuel + 1) n) = some n := by
  have hne : (decimalDigits (fuel + 1) n).isEmpty = false := by
    simpa using decimalDigits_ne_nil fuel n
  rw [parseDigits, hne]
  exact foldl_decimalDigits h

theorem splitSign_decimalDigits (fuel n : ℕ) :
    splitSign (decimalDigits fuel n) = (false, decimalDigits fuel n) := by
  cases hdigits : decimalDigits fuel n with
  | nil => rfl
  | cons b bs =>
    have hb := mem_decimalDigits (b := b) (hdigits ▸ List.mem_cons_self)
    have hminus : b ≠ 45 := by rintro rfl; exact absurd hb.1 (by decide)
    have hplus : b ≠ 43 := by rintro rfl; exact absurd hb.1 (by decide)
    rw [splitSign, if_neg hminus, if_neg hplus]

theorem natAbs_toInt_lt (n : Int64) : n.toInt.natAbs < 10 ^ 20 := by
  have hlow := n.le_toInt
  have hhigh := n.toInt_lt
  omega

theorem parseInt_formatInt (n : Int64) : parseInt (formatInt n) = some n := by
  have hread := parseDigits_decimalDigits (natAbs_toInt_lt n)
  have hlow := n.le_toInt
  have hhigh := n.toInt_lt
  rw [formatInt]
  split
  · next hneg =>
    have hneg' : n.toInt < 0 := Int64.lt_iff_toInt_lt.mp hneg
    have hsign : splitSign (45 :: decimalDigits 20 n.toInt.natAbs)
        = (true, decimalDigits 20 n.toInt.natAbs) := rfl
    rw [parseInt, hsign, hread]
    simp only [if_true]
    rw [if_pos (by omega)]
    congr 1
    have habs : (-(n.toInt.natAbs : ℤ)) = n.toInt := by omega
    rw [habs, Int64.ofInt_toInt]
  · next hpos =>
    have hpos' : ¬ n.toInt < 0 := fun h => hpos (Int64.lt_iff_toInt_lt.mpr h)
    rw [parseInt, splitSign_decimalDigits, hread]
    simp only [Bool.false_eq_true, if_false]
    rw [if_pos (by omega)]
    congr 1
    have habs : ((n.toInt.natAbs : ℕ) : ℤ) = n.toInt := by omega
    rw [← Int64.ofInt_eq_ofNat, habs, Int64.ofInt_toInt]

theorem formatInt_injective {m n : Int64} (h : formatInt m = formatInt n) : m = n := by
  have hread := parseInt_formatInt m
  rw [h, parseInt_formatInt] at hread
  exact (Option.some.inj hread).symm

/-- A number is written with digits and perhaps a minus, so it has neither a slash nor a dot. -/
theorem mem_formatInt {n : Int64} (h : b ∈ formatInt n) : b = 45 ∨ 48 ≤ b ∧ b ≤ 57 := by
  rw [formatInt] at h
  split at h
  · exact (List.mem_cons.mp h).imp_right mem_decimalDigits
  · exact .inr (mem_decimalDigits h)

/-! ### Keys -/

inductive Tier where
  | l0
  | l1
  | compaction
deriving DecidableEq

/-- The directories `l0/`, `l1/` and `compaction/`. -/
def Tier.dir : Tier → Bytes
  | .l0 => [0x6c, 0x30, 0x2f]
  | .l1 => [0x6c, 0x31, 0x2f]
  | .compaction => [0x63, 0x6f, 0x6d, 0x70, 0x61, 0x63, 0x74, 0x69, 0x6f, 0x6e, 0x2f]

/-- The endings `.arrow` and `.manifest`. -/
def Tier.suffix : Tier → Bytes
  | .l0 => [0x2e, 0x61, 0x72, 0x72, 0x6f, 0x77]
  | .l1 => [0x2e, 0x61, 0x72, 0x72, 0x6f, 0x77]
  | .compaction => [0x2e, 0x6d, 0x61, 0x6e, 0x69, 0x66, 0x65, 0x73, 0x74]

/-- The prefix under which a reader lists the objects of a hash. -/
def tierPrefix (t : Tier) (h : Hash8) : Bytes := t.dir ++ (hexOf8 h ++ [0x2f])

/-- The key of an object: directory, hash, first system time. -/
def objectKey (t : Tier) (h : Hash8) (firstSysTimeNs : Int64) : ObjectKey :=
  tierPrefix t h ++ (formatInt firstSysTimeNs ++ t.suffix)

def l0KeyFor (h : Hash8) (firstSysTimeNs : Int64) : ObjectKey := objectKey .l0 h firstSysTimeNs

def l1KeyFor (h : Hash8) (firstSysTimeNs : Int64) : ObjectKey := objectKey .l1 h firstSysTimeNs

def manifestKeyFor (h : Hash8) (firstSysTimeNs : Int64) : ObjectKey := objectKey .compaction h firstSysTimeNs

/-- `parseFirstSysFromKey`: the number between the last slash and the last dot behind it, unless it is
negative. -/
def parseFirstSysFromKey (key : ObjectKey) : Option Int64 :=
  if 0x2f ∉ key then none
  else
    let tail := (key.reverse.takeWhile (· ≠ 0x2f)).reverse
    if 0x2e ∉ tail then none
    else
      let stem := ((tail.reverse.dropWhile (· ≠ 0x2e)).drop 1).reverse
      if stem.isEmpty then none
      else
        match parseInt stem with
        | none => none
        | some n => if n < 0 then none else some n

theorem tierPrefix_unique {key : ObjectKey} (hpre : tierPrefix t h <+: key)
    (hpre' : tierPrefix t' h' <+: key) : t = t' ∧ h = h' := by
  obtain ⟨rest, rfl⟩ := hpre
  obtain ⟨rest', hrest⟩ := hpre'
  have hsame : t = t' := by
    cases t <;> cases t' <;>
      first
        | rfl
        | simp [tierPrefix, Tier.dir] at hrest
  subst hsame
  simp only [tierPrefix, List.append_assoc, List.append_right_inj] at hrest
  exact ⟨rfl, (hexOf8_injective (List.append_inj hrest (by simp)).1).symm⟩

theorem tierPrefix_isPrefix_iff {s : Int64} : tierPrefix t h <+: objectKey t' h' s ↔ t = t' ∧ h = h' := by
  constructor
  · exact fun hpre => tierPrefix_unique hpre (List.prefix_append _ _)
  · rintro ⟨rfl, rfl⟩
    exact List.prefix_append _ _

theorem objectKey_injective {s s' : Int64}
    (heq : objectKey t h s = objectKey t' h' s') : t = t' ∧ h = h' ∧ s = s' := by
  have hpre : tierPrefix t h <+: objectKey t' h' s' := heq ▸ List.prefix_append _ _
  obtain ⟨rfl, rfl⟩ := tierPrefix_isPrefix_iff.mp hpre
  rw [objectKey, objectKey, List.append_right_inj] at heq
  exact ⟨rfl, rfl, formatInt_injective (List.append_cancel_right heq)⟩

theorem takeWhile_reverse_append {tail : Bytes} (h : b ∉ tail) (before : Bytes) :
    ((before ++ b :: tail).reverse.takeWhile (· ≠ b)).reverse = tail := by
  have hall : ∀ a ∈ tail.reverse, decide (a ≠ b) = true := fun a ha => by
    have hne : a ≠ b := fun he => h (he ▸ List.mem_reverse.mp ha)
    simpa using hne
  rw [List.reverse_append, List.reverse_cons, List.append_assoc, List.takeWhile_append_of_pos hall]
  simp

theorem dropWhile_reverse_append {tail : Bytes} (h : b ∉ tail) (before : Bytes) :
    (((before ++ b :: tail).reverse.dropWhile (· ≠ b)).drop 1).reverse = before := by
  have hall : ∀ a ∈ tail.reverse, decide (a ≠ b) = true := fun a ha => by
    have hne : a ≠ b := fun he => h (he ▸ List.mem_reverse.mp ha)
    simpa using hne
  rw [List.reverse_append, List.reverse_cons, List.append_assoc, List.dropWhile_append_of_pos hall]
  simp

theorem notMem_formatInt (s : Int64) : (0x2f : UInt8) ∉ formatInt s ∧ (0x2e : UInt8) ∉ formatInt s := by
  constructor
  · intro h
    rcases mem_formatInt h with h | h
    · exact absurd h (by decide)
    · exact absurd h.1 (by decide)
  · intro h
    rcases mem_formatInt h with h | h
    · exact absurd h (by decide)
    · exact absurd h.1 (by decide)

theorem formatInt_ne_nil (s : Int64) : formatInt s ≠ [] := by
  rw [formatInt]
  split
  · exact List.cons_ne_nil _ _
  · exact decimalDigits_ne_nil _ _

/-- The time of a key is read back, unless it is negative. -/
theorem parseFirstSysFromKey_objectKey (t : Tier) (h : Hash8) (s : Int64) :
    parseFirstSysFromKey (objectKey t h s) = if s < 0 then none else some s := by
  obtain ⟨hslash, hdot⟩ := notMem_formatInt s
  -- the ending of a key is a dot and letters
  obtain ⟨ending, hsuffix, hend, hend'⟩ : ∃ ending, t.suffix = 0x2e :: ending ∧ (0x2f : UInt8) ∉ ending ∧
      (0x2e : UInt8) ∉ ending := by
    cases t <;> exact ⟨_, rfl, by decide, by decide⟩
  have hkey : objectKey t h s = (t.dir ++ hexOf8 h) ++ 0x2f :: (formatInt s ++ 0x2e :: ending) := by
    simp [objectKey, tierPrefix, hsuffix]
  have htail : (0x2f : UInt8) ∉ formatInt s ++ 0x2e :: ending := by
    simp [hslash, hend]
  rw [parseFirstSysFromKey, hkey, if_neg (by simp)]
  simp only [takeWhile_reverse_append htail]
  rw [if_neg (by simp), dropWhile_reverse_append hend']
  have hne : (formatInt s).isEmpty = false := by simpa using formatInt_ne_nil s
  rw [hne, parseInt_formatInt]
  simp

end Sovereign.Database

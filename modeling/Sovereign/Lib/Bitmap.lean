import Mathlib

/-!
# Bitmap-compressed slot arrays

A sparse array of 32 slots is stored as a 32-bit word that marks the occupied slots and a dense list
of their contents.  The content of slot `i` sits at index `rank b i`, the number of marked slots
below it.  The set bits of a word split at any slot into those below it (`lower`), the slot itself
and those above it (`upper`), and marking or clearing the slot leaves both parts alone
(`bits_mark`, `bits_clear`); all four dense-list operations (read, insert, replace, remove at
`rank`) follow from that split.
-/

namespace Sovereign.Lib.Bitmap

def bitAt (i : ℕ) : UInt32 := 1 <<< UInt32.ofNat i

/-- The set bits of a word below `n`, ascending. -/
def lower (b : UInt32) (n : ℕ) : List ℕ := (List.range n).filter fun i => b.toBitVec.getLsbD i

/-- The set bits of a word, ascending. -/
def bits (b : UInt32) : List ℕ := lower b 32

def popcount (b : UInt32) : ℕ := (bits b).length

def hasBit (b : UInt32) (i : ℕ) : Bool := b &&& bitAt i != 0

/-- The dense index of slot `i`: the number of marked slots below it. -/
def rank (b : UInt32) (i : ℕ) : ℕ := popcount (b &&& (bitAt i - 1))

/-- The set bits above `i`, ascending. -/
def upper (b : UInt32) (i : ℕ) : List ℕ :=
  (List.range' (i + 1) (31 - i)).filter fun j => b.toBitVec.getLsbD j

/-! ### Single bits -/

variable {i : ℕ} {b : UInt32} {j : ℕ}

theorem bitAt_toNat (h : i < 32) : (bitAt i).toNat = 2 ^ i := by
  have hmod : i % 4294967296 = i := Nat.mod_eq_of_lt (by omega)
  have hlt : 2 ^ i < 2 ^ 32 := Nat.pow_lt_pow_right (by norm_num) h
  simp only [bitAt, UInt32.toNat_shiftLeft, UInt32.toNat_ofNat', UInt32.toNat_one, Nat.one_shiftLeft]
  rw [show i % 2 ^ 32 % 32 = i by omega, Nat.mod_eq_of_lt hlt]

theorem bitAt_getLsbD (h : i < 32) (j : ℕ) : (bitAt i).toBitVec.getLsbD j = decide (i = j) := by
  rw [BitVec.getLsbD, UInt32.toNat_toBitVec, bitAt_toNat h, Nat.testBit_two_pow]

theorem below_getLsbD (h : i < 32) (j : ℕ) : (bitAt i - 1).toBitVec.getLsbD j = decide (j < i) := by
  have hle : (1 : UInt32) ≤ bitAt i := by
    rw [UInt32.le_iff_toNat_le, bitAt_toNat h]
    exact Nat.one_le_two_pow
  rw [BitVec.getLsbD, UInt32.toNat_toBitVec, UInt32.toNat_sub_of_le _ _ hle, bitAt_toNat h,
    UInt32.toNat_one, Nat.testBit_two_pow_sub_one]

theorem hasBit_eq (h : i < 32) (b : UInt32) : hasBit b i = b.toBitVec.getLsbD i := by
  have hand : ∀ j, (b &&& bitAt i).toBitVec.getLsbD j = (b.toBitVec.getLsbD j && decide (i = j)) := by
    intro j
    rw [UInt32.toBitVec_and, BitVec.getLsbD_and, bitAt_getLsbD h]
  cases hb : b.toBitVec.getLsbD i with
  | true =>
    have : b &&& bitAt i ≠ 0 := by
      intro h0
      have := hand i
      rw [h0, hb] at this
      simp at this
    simpa [hasBit] using this
  | false =>
    have : b &&& bitAt i = 0 := by
      apply UInt32.toBitVec_inj.mp
      apply BitVec.eq_of_getLsbD_eq
      intro j _
      rw [hand j]
      by_cases hij : i = j
      · subst hij; simp [hb]
      · simp [hij]
    simp [hasBit, this]

/-! ### The split of a word at a slot -/

theorem mem_bits : j ∈ bits b ↔ b.toBitVec.getLsbD j = true := by
  rw [bits, lower, List.mem_filter, List.mem_range]
  constructor
  · exact fun h => h.2
  · exact fun h => ⟨BitVec.lt_of_getLsbD h, h⟩

theorem bits_nodup (b : UInt32) : (bits b).Nodup := List.nodup_range.filter _

theorem bits_split (b : UInt32) (h : i < 32) :
    bits b = lower b i ++ ((if hasBit b i then [i] else []) ++ upper b i) := by
  have hrange : List.range 32 = List.range i ++ (i :: List.range' (i + 1) (31 - i)) := by
    have h1 := @List.range'_append 0 i (32 - i) 1
    rw [show i + (32 - i) = 32 by omega, Nat.zero_add, one_mul] at h1
    rw [List.range_eq_range', ← h1, ← List.range_eq_range', show 32 - i = (31 - i) + 1 by omega,
      List.range'_succ]
  rw [bits, lower, hrange, List.filter_append, List.filter_cons, hasBit_eq h, ← lower]
  cases b.toBitVec.getLsbD i <;> rfl

theorem lower_congr {c : UInt32} {n : ℕ}
    (h : ∀ j < n, b.toBitVec.getLsbD j = c.toBitVec.getLsbD j) : lower b n = lower c n :=
  List.filter_congr fun j hj => h j (List.mem_range.mp hj)

theorem upper_congr {c : UInt32}
    (h : ∀ j, i < j → b.toBitVec.getLsbD j = c.toBitVec.getLsbD j) : upper b i = upper c i :=
  List.filter_congr fun j hj => h j (by have := List.mem_range'_1.mp hj; omega)

theorem rank_eq (b : UInt32) (h : i < 32) : rank b i = (lower b i).length := by
  have hget : ∀ j, (b &&& (bitAt i - 1)).toBitVec.getLsbD j
      = (b.toBitVec.getLsbD j && decide (j < i)) := fun j => by
    rw [UInt32.toBitVec_and, BitVec.getLsbD_and, below_getLsbD h]
  have hi : hasBit (b &&& (bitAt i - 1)) i = false := by rw [hasBit_eq h, hget]; simp
  have hup : upper (b &&& (bitAt i - 1)) i = [] := by
    rw [upper, List.filter_eq_nil_iff]
    intro j hj
    have := List.mem_range'_1.mp hj
    rw [hget]
    simp
    omega
  have hlow : lower (b &&& (bitAt i - 1)) i = lower b i :=
    lower_congr fun j hj => by rw [hget]; simp [hj]
  rw [rank, popcount, bits_split _ h, hi, hup, hlow]
  simp

/-- Marking slot `i` puts it between the lower and the upper set bits. -/
theorem bits_mark (b : UInt32) (h : i < 32) : bits (b ||| bitAt i) = lower b i ++ i :: upper b i := by
  have hget : ∀ j, (b ||| bitAt i).toBitVec.getLsbD j
      = (b.toBitVec.getLsbD j || decide (i = j)) := fun j => by
    rw [UInt32.toBitVec_or, BitVec.getLsbD_or, bitAt_getLsbD h]
  have hi : hasBit (b ||| bitAt i) i = true := by rw [hasBit_eq h, hget]; simp
  have hlow : lower (b ||| bitAt i) i = lower b i :=
    lower_congr fun j hj => by rw [hget]; simp [Nat.ne_of_gt hj]
  have hup : upper (b ||| bitAt i) i = upper b i :=
    upper_congr fun j hj => by rw [hget]; simp [Nat.ne_of_lt hj]
  rw [bits_split _ h, hi, hlow, hup]
  simp

/-- Clearing slot `i` leaves the lower and the upper set bits. -/
theorem bits_clear (b : UInt32) (h : i < 32) : bits (b &&& ~~~bitAt i) = lower b i ++ upper b i := by
  have hget : ∀ j, (b &&& ~~~bitAt i).toBitVec.getLsbD j
      = (b.toBitVec.getLsbD j && (decide (j < 32) && !decide (i = j))) := fun j => by
    rw [UInt32.toBitVec_and, BitVec.getLsbD_and, UInt32.toBitVec_not, BitVec.getLsbD_not,
      bitAt_getLsbD h]
  have hne : ∀ j, i ≠ j → (b &&& ~~~bitAt i).toBitVec.getLsbD j = b.toBitVec.getLsbD j := by
    intro j hj
    rw [hget]
    by_cases hj32 : j < 32
    · simp [hj32, hj]
    · simp [hj32, BitVec.getLsbD_of_ge b.toBitVec j (by omega)]
  have hi : hasBit (b &&& ~~~bitAt i) i = false := by rw [hasBit_eq h, hget]; simp
  have hlow : lower (b &&& ~~~bitAt i) i = lower b i := lower_congr fun j hj => hne j (by omega)
  have hup : upper (b &&& ~~~bitAt i) i = upper b i := upper_congr fun j hj => hne j (by omega)
  rw [bits_split _ h, hi, hlow, hup]
  simp

theorem bits_of_hasBit (h : i < 32) (hb : hasBit b i = true) : bits b = lower b i ++ i :: upper b i := by
  rw [bits_split b h, hb]
  simp

theorem bits_of_not_hasBit (h : i < 32) (hb : hasBit b i = false) : bits b = lower b i ++ upper b i := by
  rw [bits_split b h, hb]
  simp

@[simp] theorem bits_zero : bits 0 = [] := by decide

theorem bits_bitAt (h : i < 32) : bits (bitAt i) = [i] := by
  have hz := bits_mark 0 h
  have hlow : lower 0 i = [] := List.filter_eq_nil_iff.mpr fun j _ => by simp
  have hup : upper 0 i = [] := List.filter_eq_nil_iff.mpr fun j _ => by simp
  rw [hlow, hup] at hz
  simpa using hz

theorem bits_two (hij : i < j) (hj : j < 32) : bits (bitAt i ||| bitAt j) = [i, j] := by
  have hi : i < 32 := hij.trans hj
  have hup : upper (bitAt i) j = [] := List.filter_eq_nil_iff.mpr fun k hk => by
    have := List.mem_range'_1.mp hk
    rw [bitAt_getLsbD hi]
    simp
    omega
  have hlow : lower (bitAt i) j = [i] := by
    have hs := bits_of_not_hasBit (b := bitAt i) hj (by
      rw [hasBit_eq hj, bitAt_getLsbD hi]; simp [Nat.ne_of_lt hij])
    rw [bits_bitAt hi] at hs
    simpa [hup] using hs.symm
  rw [bits_mark _ hj, hlow, hup]
  rfl

/-! ### The dense list of a marked word -/

variable {γ : Type*}

/-- The slots of a compressed array with their contents, in slot order. -/
def slots (b : UInt32) (cs : List γ) : List (ℕ × γ) := (bits b).zip cs

variable {b : UInt32} {cs : List γ} {i : ℕ}

section
variable (hlen : cs.length = popcount b)
include hlen

theorem length_lower_take (h : i < 32) :
    (lower b i).length = (cs.take (rank b i)).length := by
  have hsum := congrArg List.length (bits_split b h)
  rw [← popcount, ← hlen] at hsum
  simp only [List.length_append] at hsum
  rw [List.length_take, rank_eq b h]
  omega

/-- A word with the lower set bits of `b`, over a list with the lower contents. -/
theorem slots_below (h : i < 32) {b' : UInt32} {above : List ℕ}
    (hbits : bits b' = lower b i ++ above) (rest : List γ) :
    slots b' (cs.take (rank b i) ++ rest) = (lower b i).zip (cs.take (rank b i)) ++ above.zip rest := by
  rw [slots, hbits, List.zip_append (length_lower_take hlen h)]

theorem slots_replace (h : i < 32) (hb : hasBit b i = true) (c : γ) :
    slots b (cs.take (rank b i) ++ c :: cs.drop (rank b i + 1))
      = (lower b i).zip (cs.take (rank b i)) ++
        (i, c) :: (upper b i).zip (cs.drop (rank b i + 1)) :=
  slots_below hlen h (bits_of_hasBit h hb) _

/-- The content of a marked slot is at its rank. -/
theorem slots_split
    (h : i < 32) (hb : hasBit b i = true) : ∃ c, cs[rank b i]? = some c ∧ (i, c) ∈ slots b cs ∧
    slots b cs = (lower b i).zip (cs.take (rank b i)) ++
      (i, c) :: (upper b i).zip (cs.drop (rank b i + 1)) := by
  have hlt : rank b i < cs.length := by
    rw [hlen, popcount, bits_of_hasBit h hb, rank_eq b h]
    simp
  have hslots := slots_replace hlen h hb cs[rank b i]
  rw [← List.drop_eq_getElem_cons hlt, List.take_append_drop] at hslots
  exact ⟨_, List.getElem?_eq_getElem hlt, by simp [hslots], hslots⟩

theorem slots_insert (h : i < 32) (hb : hasBit b i = false) (c : γ) :
    slots (b ||| bitAt i) (cs.take (rank b i) ++ c :: cs.drop (rank b i))
        = (lower b i).zip (cs.take (rank b i)) ++ (i, c) :: (upper b i).zip (cs.drop (rank b i))
    ∧ slots b cs
        = (lower b i).zip (cs.take (rank b i)) ++ (upper b i).zip (cs.drop (rank b i)) := by
  refine ⟨slots_below hlen h (bits_mark b h) _, ?_⟩
  rw [← slots_below hlen h (bits_of_not_hasBit h hb), List.take_append_drop]

theorem slots_remove (h : i < 32) :
    slots (b &&& ~~~bitAt i) (cs.take (rank b i) ++ cs.drop (rank b i + 1))
      = (lower b i).zip (cs.take (rank b i)) ++ (upper b i).zip (cs.drop (rank b i + 1)) :=
  slots_below hlen h (bits_clear b h) _

/-- A full dense list is the second projection of its slots. -/
theorem map_snd_slots : (slots b cs).map Prod.snd = cs := by
  rw [slots, List.map_snd_zip]
  rw [hlen, popcount]

theorem map_fst_slots : (slots b cs).map Prod.fst = bits b := by
  rw [slots, List.map_fst_zip]
  rw [hlen, popcount]

theorem nodup_fst_slots : ((slots b cs).map Prod.fst).Nodup := by
  rw [map_fst_slots hlen]
  exact bits_nodup b

theorem hasBit_of_mem_slots {s : ℕ × γ} (hs : s ∈ slots b cs) (h : s.1 < 32) :
    hasBit b s.1 = true := by
  rw [hasBit_eq h]
  exact mem_bits.mp (map_fst_slots hlen ▸ List.mem_map_of_mem hs)

end

end Sovereign.Lib.Bitmap

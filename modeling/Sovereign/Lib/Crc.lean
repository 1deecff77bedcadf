import Sovereign.Lib.Bytes

/-!
# Reflected cyclic redundancy checks

The bitwise definition of a reflected 32-bit CRC, and the one fact a log needs of it: with
a polynomial whose top bit is set every step of the register is injective, so two
messages that differ in a single byte have different checksums (`crc_ne_of_byte`).  In particular
a checksum detects every single-bit error (`crc32c_flipBit_ne`).
-/

namespace Sovereign.Lib

def crcShift (poly c : UInt32) : UInt32 := if c &&& 1 = 1 then (c >>> 1) ^^^ poly else c >>> 1

/-- One byte into the register: added to its low end, then eight shifts. -/
def crcByte (poly c : UInt32) (b : UInt8) : UInt32 := (crcShift poly)^[8] (c ^^^ b.toUInt32)

/-- The checksum of a message: register and result are complemented. -/
def crc (poly : UInt32) (bs : Bytes) : UInt32 :=
  bs.foldl (crcByte poly) 0xFFFFFFFF ^^^ 0xFFFFFFFF

/-- CRC-32C, the Castagnoli polynomial. -/
def crc32c (bs : Bytes) : UInt32 := crc 0x82F63B78 bs

theorem and_one_eq_one_iff (c : UInt32) : c &&& 1 = 1 ↔ c.toNat % 2 = 1 := by
  rw [← UInt32.toNat_inj, UInt32.toNat_and]
  simp [Nat.and_one_is_mod]

theorem toNat_shiftRight_one (c : UInt32) : (c >>> 1).toNat = c.toNat / 2 := by
  simp [UInt32.toNat_shiftRight, Nat.shiftRight_eq_div_pow]

theorem eq_of_shift_eq {c d : UInt32} (h : c >>> 1 = d >>> 1) (hlow : c.toNat % 2 = d.toNat % 2) :
    c = d := by
  have hdiv := congrArg UInt32.toNat h
  rw [toNat_shiftRight_one, toNat_shiftRight_one] at hdiv
  exact UInt32.toNat_inj.mp (by omega)

section
variable {poly : UInt32} {b b' : UInt8}

/-- The top bit tells which branch a shift took. -/
theorem shift_ne_shift_xor (hp : 2 ^ 31 ≤ poly.toNat) (c d : UInt32) :
    (c >>> 1) ^^^ poly ≠ d >>> 1 := by
  intro h
  have hpoly : poly = (c >>> 1) ^^^ (d >>> 1) := by
    rw [← h, ← UInt32.xor_assoc, UInt32.xor_self, UInt32.zero_xor]
  have hc : (c >>> 1).toNat < 2 ^ 31 := by
    rw [toNat_shiftRight_one]
    have := c.toNat_lt
    omega
  have hd : (d >>> 1).toNat < 2 ^ 31 := by
    rw [toNat_shiftRight_one]
    have := d.toNat_lt
    omega
  have hlt := Nat.xor_lt_two_pow hc hd
  rw [← UInt32.toNat_xor, ← hpoly] at hlt
  omega

theorem crcShift_injective (hp : 2 ^ 31 ≤ poly.toNat) : Function.Injective (crcShift poly) := by
  intro c d h
  rw [crcShift, crcShift] at h
  have hlow : ∀ x : UInt32, ¬ x &&& 1 = 1 → x.toNat % 2 = 0 := fun x hx => by
    rw [and_one_eq_one_iff] at hx
    omega
  split at h <;> split at h
  · next hc hd =>
    rw [and_one_eq_one_iff] at hc hd
    exact eq_of_shift_eq ((UInt32.xor_left_inj poly).mp h) (hc.trans hd.symm)
  · exact absurd h (shift_ne_shift_xor hp c d)
  · exact absurd h.symm (shift_ne_shift_xor hp d c)
  · next hc hd => exact eq_of_shift_eq h ((hlow c hc).trans (hlow d hd).symm)

theorem crcByte_injective (hp : 2 ^ 31 ≤ poly.toNat) (b : UInt8) :
    Function.Injective fun c => crcByte poly c b := fun _ _ h =>
  (UInt32.xor_left_inj b.toUInt32).mp ((crcShift_injective hp).iterate 8 h)

theorem crcByte_ne (hp : 2 ^ 31 ≤ poly.toNat) (c : UInt32) (hne : b ≠ b') :
    crcByte poly c b ≠ crcByte poly c b' := fun h => hne <| by
  have := (UInt32.xor_right_inj c).mp ((crcShift_injective hp).iterate 8 h)
  exact UInt8.toUInt32_inj.mp this

theorem foldl_crcByte_injective (hp : 2 ^ 31 ≤ poly.toNat) (bs : Bytes) :
    Function.Injective fun c => bs.foldl (crcByte poly) c := by
  induction bs with
  | nil => exact fun _ _ h => h
  | cons b bs ih => exact fun _ _ h => crcByte_injective hp b (ih h)

theorem crc_ne_of_byte (hp : 2 ^ 31 ≤ poly.toNat) (xs ys : Bytes) (hne : b ≠ b') :
    crc poly (xs ++ b :: ys) ≠ crc poly (xs ++ b' :: ys) := by
  intro h
  have hfold := (UInt32.xor_left_inj 0xFFFFFFFF).mp h
  rw [List.foldl_append, List.foldl_append] at hfold
  exact crcByte_ne hp _ hne (foldl_crcByte_injective hp ys hfold)

theorem crc32c_ne_of_byte (xs ys : Bytes) (hne : b ≠ b') :
    crc32c (xs ++ b :: ys) ≠ crc32c (xs ++ b' :: ys) := crc_ne_of_byte (by decide) xs ys hne

end

/-! ### Single-bit errors -/

def flipByte (bit : ℕ) (b : UInt8) : UInt8 := b ^^^ UInt8.ofNat (2 ^ bit)

/-- Flip one bit of the byte at a position. -/
def flipBit (bs : Bytes) (pos bit : ℕ) : Bytes := bs.modify pos (flipByte bit)

variable {pos bit : ℕ} {bs : Bytes}

theorem flipByte_ne (h : bit < 8) (b : UInt8) : flipByte bit b ≠ b := by
  intro heq
  have hzero : UInt8.ofNat (2 ^ bit) = 0 := by
    rw [flipByte] at heq
    exact (UInt8.xor_right_inj b).mp (heq.trans UInt8.xor_zero.symm)
  interval_cases bit <;> exact absurd hzero (by decide)

@[simp] theorem flipBit_length (bs : Bytes) (pos bit : ℕ) : (flipBit bs pos bit).length = bs.length :=
  List.length_modify ..

theorem flipBit_append_right (xs ys : Bytes) (pos bit : ℕ) :
    flipBit (xs ++ ys) (xs.length + pos) bit = xs ++ flipBit ys pos bit := by
  induction xs with
  | nil => simp
  | cons x xs ih =>
    rw [List.cons_append, List.length_cons, Nat.add_right_comm, List.cons_append, ← ih]
    rfl

theorem exists_flipBit_eq (h : pos < bs.length) (bit : ℕ) :
    ∃ xs b ys, xs.length = pos ∧ bs = xs ++ b :: ys ∧
      flipBit bs pos bit = xs ++ flipByte bit b :: ys := by
  obtain ⟨xs, b, ys, rfl, rfl⟩ : ∃ xs b ys, xs.length = pos ∧ bs = xs ++ b :: ys :=
    ⟨bs.take pos, bs.get ⟨pos, h⟩, bs.drop (pos + 1), by simp; omega, by simp⟩
  refine ⟨xs, b, ys, rfl, rfl, ?_⟩
  have hflip := flipBit_append_right xs (b :: ys) 0 bit
  simpa [flipBit] using hflip

theorem flipBit_append_left {xs : Bytes} (h : pos < xs.length) (ys : Bytes) (bit : ℕ) :
    flipBit (xs ++ ys) pos bit = flipBit xs pos bit ++ ys := by
  obtain ⟨as, b, bs, rfl, rfl, hflip⟩ := exists_flipBit_eq h bit
  rw [hflip, List.append_assoc, ← Nat.add_zero as.length, flipBit_append_right]
  simp [flipBit]

theorem flipBit_ne (h : pos < bs.length) (hb : bit < 8) : flipBit bs pos bit ≠ bs := by
  obtain ⟨xs, b, ys, -, rfl, hflip⟩ := exists_flipBit_eq h bit
  rw [hflip]
  simpa using flipByte_ne hb b

/-- **Single-bit errors are detected.** -/
theorem crc32c_flipBit_ne (h : pos < bs.length) (hb : bit < 8) : crc32c (flipBit bs pos bit) ≠ crc32c bs := by
  obtain ⟨xs, b, ys, -, rfl, hflip⟩ := exists_flipBit_eq h bit
  rw [hflip]
  exact crc32c_ne_of_byte xs ys (flipByte_ne hb b)

/-- The check value of CRC-32C: the checksum of the ASCII digits one to nine. -/
example : crc32c [0x31, 0x32, 0x33, 0x34, 0x35, 0x36, 0x37, 0x38, 0x39] = 0xE3069283 := by
  decide +kernel

end Sovereign.Lib

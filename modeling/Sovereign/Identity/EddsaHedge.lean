import Sovereign.Identity.Directory

/-!
# Hedged Ed25519 signatures

`SignCRDTFrame` draws its nonce from random bytes and takes the secret scalar from the seed by itself, with the scalars
of one library, while the public key comes from another one and `VerifyCRDTFrame` uses both.  `Edwards25519` is what
they share: a commutative group, a base point of order `l`, and an encoding that both decoders read back.

* `clamped_mod_order_ne_zero` — no clamped scalar is zero modulo `l`: it is a multiple of 8 in `[2^254, 2^255)`, and
  `8 l` is greater.
* `verify_sign` — so the derived key is not of small order, and every signature is accepted under it.
* `nonce_signWithNonce` — the nonce is the hash of the random bytes and the message: no part of the secret key goes in.
-/

namespace Sovereign.Identity

open Lib

/-- The order `l` of the base point. -/
@[irreducible] def order : ℕ := 2 ^ 252 + 27742317777372353535851937790883648493

/-- The curve as the two libraries compute on it. -/
structure Edwards25519 (P : Type*) [AddCommGroup P] where
  base : P
  addOrderOf_base : addOrderOf base = order
  /-- `Point.Bytes`, the canonical encoding. -/
  encode : P → FixedBytes 32
  /-- `Point.SetBytes`, which takes encodings that are not canonical too. -/
  setBytes : Bytes → Option P
  /-- `FromBytes` of the verifier, for canonical encodings. -/
  fromBytes : Bytes → Option P
  setBytes_encode : ∀ p, setBytes (encode p).bytes = some p
  fromBytes_encode : ∀ p, fromBytes (encode p).bytes = some p

/-- The clamping of 32 bytes: the low three bits are cleared, the high ones masked, and bit 254 is set. -/
def clamp (mask : UInt8) (b : Bytes) : Bytes := (b.modify 0 (· &&& 248)).modify 31 fun x => x &&& mask ||| 64

namespace Edwards25519

variable {P : Type*} [AddCommGroup P] [DecidableEq P] (E : Edwards25519 P) (sha512 : Bytes → FixedBytes 64)

/-- `NewKeyFromSeed`: the public key. -/
def newKeyFromSeed (seed : Bytes) : PublicKey :=
  E.encode ((getLE (clamp 127 ((sha512 seed).bytes.take 32)) % order) • E.base)

/-- `SetUniformBytes` of a digest. -/
def hashToScalar (b : Bytes) : ℕ := getLE (sha512 b).bytes % order

/-- The body of `SignCRDTFrame`: its nonce scalar and its signature; without random bytes, or for a seed of another
length, it is `ErrHedgeSign`. -/
def signWithNonce (seed msg : Bytes) (random : Option (FixedBytes 64)) : Option (ℕ × Bytes) :=
  if seed.length ≠ 32 then none
  else
    let pub := (E.newKeyFromSeed sha512 seed).bytes
    match E.setBytes pub, random with
    | some _, some rnd =>
      let r := hashToScalar sha512 (rnd.bytes ++ msg)
      let R := (E.encode (r • E.base)).bytes
      let k := hashToScalar sha512 (R ++ pub ++ msg)
      -- the secret scalar, by the other library
      let a := getLE (clamp 63 ((sha512 seed).bytes.take 32)) % order
      some (r, R ++ putLE 32 ((k * a + r) % order))
    | _, _ => none

def signCRDTFrame (seed msg : Bytes) (random : Option (FixedBytes 64)) : Option Bytes :=
  (E.signWithNonce sha512 seed msg random).map Prod.snd

/-- `RejectSmallOrderKey`: true for a point that is not of small order. -/
def rejectSmallOrderKey (pub : PublicKey) : Bool :=
  match E.setBytes pub.bytes with
  | none => false
  | some p => !decide (8 • p = 0)

/-- `ed25519.Verify`: `s` is reduced, and `s B = R + k A`. -/
def verify (pub : PublicKey) (msg sig : Bytes) : Bool :=
  if sig.length ≠ 64 then false
  else
    let s := getLE (sig.drop 32)
    if ¬ s < order then false
    else
      match E.fromBytes pub.bytes, E.fromBytes (sig.take 32) with
      | some A, some R =>
        let k := hashToScalar sha512 (sig.take 32 ++ pub.bytes ++ msg)
        decide (s • E.base = R + k • A)
      | _, _ => false

/-- The checks of `VerifyCRDTFrame` on this curve. -/
def crypto (K : Crypto) : Crypto :=
  { K with rejectSmallOrderKey := E.rejectSmallOrderKey, ed25519Verify := E.verify sha512 }

end Edwards25519

/-! ### Clamped scalars -/

theorem clamp_cons_append {mask x y : UInt8} {mid : Bytes} (h : mid.length = 30) :
    clamp mask (x :: (mid ++ [y])) = (x &&& 248) :: (mid ++ [y &&& mask ||| 64]) := by
  rw [clamp, List.modify_zero_cons, List.modify_succ_cons, List.modify_eq_take_drop, List.take_left' h, List.drop_left' h]
  rfl

/-- The two ways to mask the last byte are the same, since bit 6 is set behind them. -/
theorem clamp_masks (b : Bytes) : clamp 127 b = clamp 63 b := by
  have hbits : ∀ v : BitVec 8, v &&& 127#8 ||| 64#8 = v &&& 63#8 ||| 64#8 := by decide +kernel
  have hmask : ∀ x : UInt8, x &&& 127 ||| 64 = x &&& 63 ||| 64 := fun x => UInt8.toBitVec_inj.mp (hbits x.toBitVec)
  simp only [clamp, hmask]

theorem low_bits (x : UInt8) : 8 ∣ (x &&& 248).toNat ∧ (x &&& 248).toNat < 256 := by
  refine ⟨?_, UInt8.toNat_lt _⟩
  have hbits : ∀ v : BitVec 8, 8 ∣ (v &&& 248#8).toNat := by decide +kernel
  exact hbits x.toBitVec

theorem high_bits (y : UInt8) : 64 ≤ (y &&& 63 ||| 64).toNat ∧ (y &&& 63 ||| 64).toNat < 128 := by
  have hbits : ∀ v : BitVec 8, 64 ≤ (v &&& 63#8 ||| 64#8).toNat ∧ (v &&& 63#8 ||| 64#8).toNat < 128 := by
    decide +kernel
  exact hbits y.toBitVec

/-- A clamped scalar is a multiple of 8 from `2^254` on, below `2^255`. -/
theorem clamped_bounds {b : Bytes} (h : b.length = 32) :
    getLE (clamp 63 b) % 8 = 0 ∧ 2 ^ 254 ≤ getLE (clamp 63 b) ∧ getLE (clamp 63 b) < 2 ^ 255 := by
  obtain ⟨x, mid, y, hmid, rfl⟩ : ∃ x mid y, List.length mid = 30 ∧ b = x :: (mid ++ [y]) := by
    cases b with
    | nil => cases h
    | cons x b =>
      rw [List.length_cons, Nat.add_right_cancel_iff] at h
      have hne : b ≠ [] := List.ne_nil_of_length_pos (by omega)
      refine ⟨x, b.dropLast, b.getLast hne, by rw [List.length_dropLast, h], ?_⟩
      rw [List.dropLast_append_getLast]
  have hvalue : getLE (clamp 63 (x :: (mid ++ [y]))) =
      (y &&& 63 ||| 64).toNat * 256 ^ 31 + getBE mid.reverse * 256 + (x &&& 248).toNat := by
    rw [clamp_cons_append hmid, getLE, List.reverse_cons, List.reverse_append, List.reverse_singleton, getBE_snoc,
      List.singleton_append, getBE_cons, List.length_reverse, hmid]
    ring
  have hmidlt : getBE mid.reverse < 256 ^ 30 := by simpa [hmid] using getBE_lt mid.reverse
  obtain ⟨hlow, hlow'⟩ := low_bits x
  obtain ⟨hhigh, hhigh'⟩ := high_bits y
  rw [hvalue]
  generalize (x &&& 248).toNat = low at hlow hlow' ⊢
  generalize (y &&& 63 ||| 64).toNat = high at hhigh hhigh' ⊢
  generalize getBE mid.reverse = middle at hmidlt ⊢
  have hrest : middle * 256 + low < 256 ^ 31 := by
    rw [pow_succ 256 30]
    omega
  refine ⟨Nat.mod_eq_zero_of_dvd ?_, ?_, ?_⟩
  · exact Nat.dvd_add (Nat.dvd_add ((dvd_pow (by decide) (by decide)).mul_left _) (Dvd.dvd.mul_left (by decide) _)) hlow
  · calc 2 ^ 254 = 64 * 256 ^ 31 := by decide +kernel
      _ ≤ high * 256 ^ 31 := Nat.mul_le_mul_right _ hhigh
      _ ≤ _ := by rw [Nat.add_assoc]; exact Nat.le_add_right _ _
  · calc high * 256 ^ 31 + middle * 256 + low < high * 256 ^ 31 + 256 ^ 31 := by
          rw [Nat.add_assoc]
          exact Nat.add_lt_add_left hrest _
      _ = (high + 1) * 256 ^ 31 := (Nat.succ_mul _ _).symm
      _ ≤ 128 * 256 ^ 31 := Nat.mul_le_mul_right _ hhigh'
      _ = 2 ^ 255 := by decide +kernel

/-- **No clamped scalar is zero modulo the order**: the order is odd and more than an eighth of `2^255`. -/
theorem clamped_mod_order_ne_zero {b : Bytes} (h : b.length = 32) : ¬ order ∣ getLE (clamp 63 b) := by
  obtain ⟨hmod, hge, hlt⟩ := clamped_bounds h
  rintro ⟨m, hm⟩
  have hcoprime : Nat.Coprime 8 order := by decide +kernel
  obtain ⟨q, rfl⟩ := hcoprime.dvd_of_dvd_mul_left (hm ▸ Nat.dvd_of_mod_eq_zero hmod)
  have hq : 0 < q := by
    rcases Nat.eq_zero_or_pos q with rfl | hq
    · rw [hm, Nat.mul_zero] at hge
      exact absurd hge (by decide +kernel)
    · exact hq
  have hbig : 2 ^ 255 ≤ order * (8 * q) :=
    calc 2 ^ 255 ≤ order * (8 * 1) := by decide +kernel
      _ ≤ order * (8 * q) := Nat.mul_le_mul_left _ (Nat.mul_le_mul_left _ hq)
  exact absurd (hm ▸ hlt) (Nat.not_lt.mpr hbig)

/-! ### Signing and verifying -/

namespace Edwards25519

section
variable {P : Type*} [AddCommGroup P] [DecidableEq P] (E : Edwards25519 P) (sha512 : Bytes → FixedBytes 64)

omit [DecidableEq P] in
theorem mod_order_nsmul (n : ℕ) : (n % order) • E.base = n • E.base := by
  rw [← E.addOrderOf_base, mod_addOrderOf_nsmul]

omit [DecidableEq P] in
/-- **The derived key is not of small order.** -/
theorem eight_nsmul_ne_zero {b : Bytes} (h : b.length = 32) : 8 • (getLE (clamp 63 b) % order) • E.base ≠ 0 := by
  rw [E.mod_order_nsmul, ← mul_nsmul', Ne, ← addOrderOf_dvd_iff_nsmul_eq_zero, E.addOrderOf_base]
  have hcoprime : Nat.Coprime order 8 := by decide +kernel
  exact fun hdvd => clamped_mod_order_ne_zero h (hcoprime.dvd_of_dvd_mul_left hdvd)

/-- A signature is accepted if the equation holds before `s` is reduced. -/
theorem verify_append {A R : P} {n : ℕ} {msg : Bytes} (h : n • E.base =
      R + hashToScalar sha512 ((E.encode R).bytes ++ (E.encode A).bytes ++ msg) • A) :
    E.verify sha512 (E.encode A) msg ((E.encode R).bytes ++ putLE 32 (n % order)) = true := by
  have hpos : 0 < order := by decide +kernel
  have hfit : order < 256 ^ 32 := by decide +kernel
  have hlt : n % order < order := Nat.mod_lt _ hpos
  have hs : getLE (putLE 32 (n % order)) = n % order := getLE_putLE_of_lt (hlt.trans hfit)
  rw [verify, if_neg (by simp), drop_append_len (E.encode R).length_bytes, take_append_len (E.encode R).length_bytes, hs]
  dsimp only
  rw [if_neg (not_not.mpr hlt), E.fromBytes_encode, E.fromBytes_encode]
  dsimp only
  rw [E.mod_order_nsmul]
  exact decide_eq_true h

/-- **Sign, then verify**: for every seed, message and random bytes, the signature is accepted under the key of the
seed, whatever SHA-512 computes; the scalar of the seed is not zero modulo the order, nor is its key of small order. -/
theorem verify_sign (K : Crypto) (seed : FixedBytes 32) (msg : Bytes) (random : FixedBytes 64) :
    (∃ sig, E.signCRDTFrame sha512 seed.bytes msg (some random) = some sig ∧
      (E.crypto sha512 K).verifyCRDTFrame (E.newKeyFromSeed sha512 seed.bytes) msg sig = true) ∧
    ¬ order ∣ getLE (clamp 63 ((sha512 seed.bytes).bytes.take 32)) ∧
    ∀ A, E.setBytes (E.newKeyFromSeed sha512 seed.bytes).bytes = some A → 8 • A ≠ 0 := by
  set a := getLE (clamp 63 ((sha512 seed.bytes).bytes.take 32)) with ha
  have hlen : ((sha512 seed.bytes).bytes.take 32).length = 32 := by simp
  have hpub : E.newKeyFromSeed sha512 seed.bytes = E.encode ((a % order) • E.base) := by
    rw [newKeyFromSeed, clamp_masks]
  have hlarge := E.eight_nsmul_ne_zero hlen
  refine ⟨?_, clamped_mod_order_ne_zero hlen, fun A hA => ?_⟩
  · rw [signCRDTFrame, signWithNonce, if_neg (by simp), hpub]
    dsimp only
    rw [E.setBytes_encode]
    dsimp only
    refine ⟨_, rfl, ?_⟩
    have hkey : E.rejectSmallOrderKey (E.encode ((a % order) • E.base)) = true := by
      rw [rejectSmallOrderKey, E.setBytes_encode]
      simpa using hlarge
    rw [Crypto.verifyCRDTFrame, if_neg (by rw [crypto]; simp [hkey])]
    refine E.verify_append sha512 ?_
    rw [add_nsmul, mul_nsmul', add_comm]
  · rw [hpub, E.setBytes_encode] at hA
    cases hA
    exact hlarge

omit [DecidableEq P] in
/-- **The nonce of a signature**, whatever the seed. -/
theorem nonce_signWithNonce (seed : FixedBytes 32) (msg : Bytes) (random : FixedBytes 64) :
    (E.signWithNonce sha512 seed.bytes msg (some random)).map Prod.fst
      = some (hashToScalar sha512 (random.bytes ++ msg)) := by
  rw [signWithNonce, if_neg (by simp), newKeyFromSeed]
  dsimp only
  rw [E.setBytes_encode]
  rfl

omit [DecidableEq P] in
/-- **Two signatures**, for hashes to scalars without a collision on what they hash: the nonces for different keys or
different messages differ exactly if not only the keys do. -/
theorem nonces_differ_iff {seed seed' : FixedBytes 32} {msg msg' : Bytes} {random random' : FixedBytes 64}
    (hinj : hashToScalar sha512 (random.bytes ++ msg) = hashToScalar sha512 (random'.bytes ++ msg') →
      random.bytes ++ msg = random'.bytes ++ msg') :
    (seed ≠ seed' ∨ msg ≠ msg' → (E.signWithNonce sha512 seed.bytes msg (some random)).map Prod.fst
        ≠ (E.signWithNonce sha512 seed'.bytes msg' (some random')).map Prod.fst) ↔
      seed = seed' ∨ msg ≠ msg' ∨ random ≠ random' := by
  have heq : hashToScalar sha512 (random.bytes ++ msg) = hashToScalar sha512 (random'.bytes ++ msg') ↔
      random = random' ∧ msg = msg' := by
    constructor
    · intro h
      obtain ⟨hrandom, hmsg⟩ := List.append_inj (hinj h) (by simp)
      exact ⟨FixedBytes.ext hrandom, hmsg⟩
    · rintro ⟨rfl, rfl⟩
      rfl
  simp only [nonce_signWithNonce, ne_eq, Option.some_inj, heq]
  tauto

end

instance : NeZero order := ⟨by decide +kernel⟩

theorem getLE_putLE_val (p : ZMod order) : ((getLE (putLE 32 p.val) : ℕ) : ZMod order) = p := by
  have hfit : order < 256 ^ 32 := by decide +kernel
  rw [getLE_putLE_of_lt (p.val_lt.trans hfit), ZMod.natCast_zmod_val]

/-- The integers modulo the order, in place of the curve. -/
def integers : Edwards25519 (ZMod order) where
  base := 1
  addOrderOf_base := ZMod.addOrderOf_one order
  encode p := ⟨putLE 32 p.val, putLE_length _ _⟩
  setBytes b := some (getLE b)
  fromBytes b := some (getLE b)
  setBytes_encode p := by rw [getLE_putLE_val]
  fromBytes_encode p := by rw [getLE_putLE_val]

/-- Two keys that sign one message with the same random bytes use the same nonce, whatever SHA-512 computes. -/
theorem shared_nonce : ∃ seed seed' : FixedBytes 32, seed ≠ seed' ∧ ∀ sha512 : Bytes → FixedBytes 64, ∃ r,
    (integers.signWithNonce sha512 seed.bytes [] (some (.zero 64))).map Prod.fst = some r ∧
    (integers.signWithNonce sha512 seed'.bytes [] (some (.zero 64))).map Prod.fst = some r :=
  ⟨.zero 32, .copyFrom 32 [1], by decide, fun sha512 =>
    ⟨_, integers.nonce_signWithNonce sha512 _ [] _, integers.nonce_signWithNonce sha512 _ [] _⟩⟩

theorem nonces_differ_other_message :
    (integers.signWithNonce (fun b => .copyFrom 64 (b.drop 64)) (FixedBytes.zero 32).bytes [1] (some (.zero 64))).map Prod.fst
      ≠ (integers.signWithNonce (fun b => .copyFrom 64 (b.drop 64)) (FixedBytes.zero 32).bytes [2] (some (.zero 64))).map
        Prod.fst :=
  (integers.nonces_differ_iff _ (by decide +kernel)).mpr (.inl rfl) (.inr (by decide))

end Edwards25519

end Sovereign.Identity

import Sovereign.Receive.Receiver

/-!
# The relay envelope codec and its second reader

`Marshal` and `UnmarshalRelayEnvelope` of `pkg/attribution/envelope.go`, and `readLastHop` of `pkg/receive/receiver.go`,
which finds the last hop in the raw frame on its own.

* `unmarshal_marshal_append` — what is marshalled is read back, whatever follows it.  `Marshal` writes the current
  version whatever the version of the envelope, so the version is the only field that may change.
* `marshal_of_unmarshal` — what is accepted of the current version starts with the marshalled envelope.  The length check
  asks for enough bytes, not for exactly as many, so there may be more behind it.
* `readLastHop_of_unmarshal` — on an accepted frame of either version the second reader finds the last hop.
-/

namespace Sovereign.Receive

open Lib Sync Attribution

/-! ### Hops -/

def putHop (h : Hop) : Bytes := h.relayPub.bytes ++ (h.sig.bytes ++ putWall h.wallUSec)

@[simp] theorem putHop_length (h : Hop) : (putHop h).length = hopSize := by
  simp [putHop, putWall, hopSize]

theorem getWall_putWall (t : Int64) : getWall (putWall t) = t := by
  rw [getWall, putWall, getLE_putLE_of_lt (toNat_lt_256_pow_8 _), UInt64.ofNat_toNat, Int64.toInt64_toUInt64]

theorem putWall_getWall {bs : Bytes} (h : bs.length = 8) : putWall (getWall bs) = bs := by
  have hlt : getLE bs < 2 ^ 64 := getLE_lt h
  rw [putWall, getWall, UInt64.toUInt64_toInt64, UInt64.toNat_ofNat_of_lt' hlt, putLE_getLE h]

theorem readHop_skip {xs : Bytes} {off : ℕ} (hle : xs.length ≤ off) (ys : Bytes) :
    readHop (xs ++ ys) off = readHop ys (off - xs.length) := by
  rw [readHop, readHop, slice_skip hle, slice_skip (by omega), slice_skip (by omega),
    Nat.sub_add_comm hle, Nat.sub_add_comm hle]

theorem readHop_putHop (h : Hop) (rest : Bytes) : readHop (putHop h ++ rest) 0 = h := by
  have hpub := h.relayPub.length_bytes
  have hsig := h.sig.length_bytes
  have hwall : (putWall h.wallUSec).length = 8 := putLE_length _ _
  simp only [readHop, putHop, List.append_assoc]
  rw [slice_head hpub, slice_skip (by omega), hpub, slice_head hsig, slice_skip (by omega), hpub, slice_skip (by omega),
    hsig, slice_head hwall, FixedBytes.copyFrom_self, FixedBytes.copyFrom_self, getWall_putWall]

theorem readHop_flatMap (hops : List Hop) (rest : Bytes) {i : ℕ} (hi : i < hops.length) :
    readHop (hops.flatMap putHop ++ rest) (i * hopSize) = hops[i] := by
  induction hops generalizing i with
  | nil => simp at hi
  | cons h hops ih =>
    rw [List.flatMap_cons, List.append_assoc]
    cases i with
    | zero =>
      rw [Nat.zero_mul]
      exact readHop_putHop h _
    | succ i =>
      have hi' : i < hops.length := by simpa using hi
      rw [readHop_skip (by rw [putHop_length, Nat.succ_mul]; omega), putHop_length, Nat.succ_mul,
        Nat.add_sub_cancel, ih hi']
      rfl

variable {wire : Bytes} {e : RelayEnvelope}

theorem putHop_readHop {base : ℕ} (h : base + hopSize ≤ wire.length) :
    putHop (readHop wire base) = slice wire base hopSize := by
  rw [hopSize] at h
  rw [putHop, readHop, FixedBytes.copyFrom_bytes (slice_length (by omega)),
    FixedBytes.copyFrom_bytes (slice_length (by omega)), putWall_getWall (slice_length (by omega)),
    slice_append wire (base + 32) 64 8, slice_append wire base 32 (64 + 8)]
  rfl

/-! ### Envelopes -/

/-- The header of version 3 and the inner wire. -/
def marshalHead (e : RelayEnvelope) : Bytes :=
  putLE 2 envelopeVersion.toNat ++ (putLE 2 e.hops.length ++ (putLE 4 e.innerWire.length ++
    (e.originSig.bytes ++ (putLE 8 e.dotCounter.toNat ++ (e.originNodeID.bytes ++ e.innerWire)))))

theorem marshal_eq (e : RelayEnvelope) : e.marshal = marshalHead e ++ e.hops.flatMap putHop := by
  simp only [RelayEnvelope.marshal, marshalHead, List.append_assoc]
  rfl

theorem marshalHead_length (e : RelayEnvelope) : (marshalHead e).length = headerLen + e.innerWire.length := by
  simp only [marshalHead, List.length_append, putLE_length, FixedBytes.length_bytes, headerLen]
  omega

theorem marshal_length (e : RelayEnvelope) :
    e.marshal.length = headerLen + e.innerWire.length + e.hops.length * hopSize := by
  have hhops : (e.hops.flatMap putHop).length = e.hops.length * hopSize := by
    rw [List.length_flatMap]
    simp
  rw [marshal_eq, List.length_append, marshalHead_length, hhops]

theorem marshal_fields (e : RelayEnvelope) (rest : Bytes) :
    let wire := e.marshal ++ rest
    slice wire 0 2 = putLE 2 envelopeVersion.toNat ∧ slice wire 2 2 = putLE 2 e.hops.length ∧
      slice wire 4 4 = putLE 4 e.innerWire.length ∧ slice wire 8 64 = e.originSig.bytes ∧
      slice wire 72 8 = putLE 8 e.dotCounter.toNat ∧ slice wire 80 16 = e.originNodeID.bytes ∧
      slice wire headerLen e.innerWire.length = e.innerWire := by
  refine ⟨?_, ?_, ?_, ?_, ?_, ?_, ?_⟩ <;>
    simp only [marshal_eq, marshalHead, List.append_assoc, slice_skip, slice_head, putLE_length,
      FixedBytes.length_bytes, Nat.reduceLeDiff, Nat.reduceSub, headerLen]

/-- The hops of a marshalled envelope, whatever follows it. -/
theorem readHops_marshal (e : RelayEnvelope) (rest : Bytes) :
    ((List.range e.hops.length).map fun i =>
      readHop (e.marshal ++ rest) (headerLen + e.innerWire.length + i * hopSize)) = e.hops := by
  refine List.ext_getElem (by simp) fun i hi hi' => ?_
  rw [List.getElem_map, List.getElem_range, marshal_eq, List.append_assoc,
    readHop_skip (by rw [marshalHead_length]; omega), marshalHead_length, Nat.add_sub_cancel_left,
    readHop_flatMap e.hops rest hi']

/-- **Round trip**: a marshalled envelope is read back as one of the current version, whatever follows it. -/
theorem unmarshal_marshal_append (hhops : e.hops.length ≤ 65535)
    (hinner : e.innerWire.length < 2 ^ 32) (rest : Bytes) :
    unmarshalRelayEnvelope (e.marshal ++ rest) = .ok { e with version := envelopeVersion } := by
  obtain ⟨hver, hcount, hlen, hsig, hdot, hnode, hwire⟩ := marshal_fields e rest
  have hver' : UInt16.ofNat (getLE (slice (e.marshal ++ rest) 0 2)) = envelopeVersion := by
    rw [hver]
    decide
  have hcount' : getLE (slice (e.marshal ++ rest) 2 2) = e.hops.length := by
    rw [hcount, getLE_putLE_of_lt (by omega)]
  have hlen' : getLE (slice (e.marshal ++ rest) 4 4) = e.innerWire.length := by
    rw [hlen, getLE_putLE_of_lt (by omega)]
  have htotal : (e.marshal ++ rest).length
      = headerLen + e.innerWire.length + e.hops.length * hopSize + rest.length := by
    rw [List.length_append, marshal_length]
  rw [unmarshalRelayEnvelope, if_neg (by rw [htotal, headerLen]; omega)]
  simp only [hver', hcount', hlen', headerLenForVersion, if_true]
  rw [if_neg (by rw [htotal]; omega), if_neg (by rw [htotal]; omega), hwire, hsig, hdot, hnode, readHops_marshal,
    FixedBytes.copyFrom_self, FixedBytes.copyFrom_self, getLE_putLE_of_lt (toNat_lt_256_pow_8 _), UInt64.ofNat_toNat]

/-! ### What is accepted -/

section
variable (h : unmarshalRelayEnvelope wire = .ok e)
include h

/-- The shape of an accepted frame. -/
theorem unmarshal_ok :
    ∃ hdrLen, headerLenForVersion (UInt16.ofNat (getLE (slice wire 0 2))) = some hdrLen ∧
      e.version = UInt16.ofNat (getLE (slice wire 0 2)) ∧ hdrLen ≤ wire.length ∧
      hdrLen + getLE (slice wire 4 4) + getLE (slice wire 2 2) * hopSize ≤ wire.length ∧
      e = { innerWire := slice wire hdrLen (getLE (slice wire 4 4))
            originSig := .copyFrom 64 (slice wire 8 64)
            dotCounter :=
              if e.version = envelopeVersion then UInt64.ofNat (getLE (slice wire 72 8)) else 0
            originNodeID :=
              if e.version = envelopeVersion then .copyFrom 16 (slice wire 80 16) else .zero 16
            version := e.version
            hops := (List.range (getLE (slice wire 2 2))).map fun i =>
              readHop wire (hdrLen + getLE (slice wire 4 4) + i * hopSize) } := by
  rw [unmarshalRelayEnvelope] at h
  dsimp only at h
  split at h
  · cases h
  split at h
  · cases h
  next hdrLen hver =>
  split at h
  · cases h
  next hhead =>
  split at h
  · cases h
  next hneed =>
  cases h
  exact ⟨hdrLen, hver, rfl, Nat.not_lt.mp hhead, Nat.not_lt.mp hneed, rfl⟩

/-- What is accepted of the current version starts with the marshalled envelope. -/
theorem marshal_of_unmarshal (hcurrent : e.version = envelopeVersion) :
    e.hops.length ≤ 65535 ∧ e.innerWire.length < 2 ^ 32 ∧ e.marshal = wire.take e.marshal.length := by
  obtain ⟨hdrLen, hhdr, hver, hhead, hneed, heq⟩ := unmarshal_ok h
  rw [← hver, hcurrent] at hhdr
  obtain rfl : headerLen = hdrLen := Option.some.inj hhdr
  rw [if_pos hcurrent, if_pos hcurrent] at heq
  rw [headerLen] at hhead hneed
  have hcountLt : getLE (slice wire 2 2) < 256 ^ 2 := getLE_lt (slice_length (by omega))
  have hinnerLt : getLE (slice wire 4 4) < 256 ^ 4 := getLE_lt (slice_length (by omega))
  have hhops : e.hops.length = getLE (slice wire 2 2) := by
    rw [heq]
    simp
  have hinner : e.innerWire.length = getLE (slice wire 4 4) := by
    rw [heq]
    exact slice_length (by rw [headerLen]; omega)
  refine ⟨by omega, by omega, ?_⟩
  -- every part of the marshalled form is the slice it was read from
  have hverNat : getLE (slice wire 0 2) = envelopeVersion.toNat := by
    have hlt : getLE (slice wire 0 2) < 2 ^ 16 := getLE_lt (slice_length (by omega))
    rw [← hcurrent, hver, UInt16.toNat_ofNat_of_lt' hlt]
  have hverPart : putLE 2 envelopeVersion.toNat = slice wire 0 2 := by
    rw [← hverNat, putLE_getLE (slice_length (by omega))]
  have hcountPart : putLE 2 e.hops.length = slice wire 2 2 := by
    rw [hhops, putLE_getLE (slice_length (by omega))]
  have hlenPart : putLE 4 e.innerWire.length = slice wire 4 4 := by
    rw [hinner, putLE_getLE (slice_length (by omega))]
  have hsigPart : e.originSig.bytes = slice wire 8 64 := by
    rw [heq]
    exact FixedBytes.copyFrom_bytes (slice_length (by omega))
  have hdotPart : putLE 8 e.dotCounter.toNat = slice wire 72 8 := by
    have hlt : getLE (slice wire 72 8) < 2 ^ 64 := getLE_lt (slice_length (by omega))
    rw [heq]
    dsimp only
    rw [UInt64.toNat_ofNat_of_lt' hlt, putLE_getLE (slice_length (by omega))]
  have hnodePart : e.originNodeID.bytes = slice wire 80 16 := by
    rw [heq]
    exact FixedBytes.copyFrom_bytes (slice_length (by omega))
  have hinnerPart : e.innerWire = slice wire 96 e.innerWire.length := by
    rw [hinner, heq]
    rfl
  have hhopsPart : e.hops.flatMap putHop = slice wire (96 + e.innerWire.length) (e.hops.length * hopSize) := by
    rw [← flatMap_slice, hhops, hinner, heq, List.flatMap_map]
    refine List.flatMap_congr fun i hi => ?_
    have hi' : (i + 1) * hopSize ≤ getLE (slice wire 2 2) * hopSize :=
      Nat.mul_le_mul_right _ (List.mem_range.mp hi)
    rw [Nat.succ_mul] at hi'
    exact putHop_readHop (by rw [headerLen]; omega)
  rw [marshal_length, marshal_eq, marshalHead, hverPart, hcountPart, hlenPart, hsigPart, hdotPart, hnodePart, hhopsPart]
  nth_rewrite 1 [hinnerPart]
  rw [slice_append wire 80 16, slice_append wire 72 8, slice_append wire 8 64, slice_append wire 4 4,
    slice_append wire 2 2, slice_append wire 0 2]
  have hsum : 2 + (2 + (4 + (64 + (8 + (16 + e.innerWire.length))))) = 96 + e.innerWire.length := by omega
  have hjoin := slice_append wire 0 (96 + e.innerWire.length) (e.hops.length * hopSize)
  rw [Nat.zero_add] at hjoin
  rw [hsum, hjoin]
  rfl

/-- The second reader finds the last hop of an accepted frame. -/
theorem readLastHop_of_unmarshal
    {last : Hop} (hlast : e.hops.getLast? = some last) :
    readLastHop wire e.hops.length = .ok (last.relayPub, last.wallUSec) := by
  obtain ⟨hdrLen, hhdr, -, hhead, hneed, heq⟩ := unmarshal_ok h
  have hhops : e.hops.length = getLE (slice wire 2 2) := by
    rw [heq]
    simp
  have hpos : 0 < e.hops.length := List.length_pos_iff.mpr fun hnil => by simp [hnil] at hlast
  have hmin : 72 ≤ hdrLen := by
    unfold headerLenForVersion at hhdr
    split_ifs at hhdr <;> cases hhdr <;> decide
  have hfits : (e.hops.length - 1) * hopSize + hopSize = e.hops.length * hopSize := by
    rw [← Nat.succ_mul, Nat.succ_eq_add_one, Nat.sub_add_cancel hpos]
  -- the last hop is where the loop read it
  have hhop : last = readHop wire (hdrLen + getLE (slice wire 4 4) + (e.hops.length - 1) * hopSize) := by
    rw [List.getLast?_eq_getElem?, hhops, heq, List.getElem?_map, List.getElem?_range (by omega)] at hlast
    rw [hhops]
    exact (Option.some.inj hlast).symm
  rw [readLastHop, if_neg (by omega), if_neg (by omega)]
  dsimp only
  rw [hhdr]
  dsimp only
  rw [if_neg (by rw [hhops] at hfits ⊢; omega), hhop]

end

/-! ### The codec -/

/-- **The relay envelope codec.**  What is marshalled is read back, apart from the version, which becomes the current
one; an accepted byte string of the current version is the marshalled envelope and what follows it; and the last hop of
an accepted frame of either version is the one the second reader finds. -/
theorem relay_envelope_codec :
    (∀ (e : RelayEnvelope) (rest : Bytes), e.hops.length ≤ 65535 → e.innerWire.length < 2 ^ 32 →
      unmarshalRelayEnvelope (e.marshal ++ rest) = .ok { e with version := envelopeVersion } ∧
        (unmarshalRelayEnvelope e.marshal = .ok e ↔ e.version = envelopeVersion)) ∧
    (∀ wire e, unmarshalRelayEnvelope wire = .ok e → e.version = envelopeVersion →
      e.marshal = wire.take e.marshal.length ∧ (e.marshal = wire ↔ wire.length ≤ e.marshal.length)) ∧
    ∀ wire e last, unmarshalRelayEnvelope wire = .ok e → e.hops.getLast? = some last →
      readLastHop wire e.hops.length = .ok (last.relayPub, last.wallUSec) := by
  refine ⟨fun e rest hhops hinner => ⟨unmarshal_marshal_append hhops hinner rest, ?_⟩, fun wire e h hcurrent => ?_,
    fun wire e last h hlast => readLastHop_of_unmarshal h hlast⟩
  · have hback := unmarshal_marshal_append hhops hinner []
    rw [List.append_nil] at hback
    rw [hback]
    constructor
    · intro heq
      rw [← Except.ok.inj heq]
    · intro hver
      rw [← hver]
  · obtain ⟨-, -, htake⟩ := marshal_of_unmarshal h hcurrent
    refine ⟨htake, fun heq => by rw [heq], fun hle => ?_⟩
    rw [htake, List.take_of_length_le hle]

def sampleEnvelope : RelayEnvelope := ⟨[9], .zero 64, 1, .zero 16, 3, [⟨.zero 32, .zero 64, 5⟩]⟩

theorem relay_envelope_codec_on_sample :
    unmarshalRelayEnvelope sampleEnvelope.marshal = .ok sampleEnvelope ∧
      readLastHop sampleEnvelope.marshal sampleEnvelope.hops.length = .ok (.zero 32, 5) := by
  have hback := ((relay_envelope_codec.1 sampleEnvelope [] (by decide) (by decide)).2).mpr rfl
  exact ⟨hback, relay_envelope_codec.2.2 _ _ ⟨.zero 32, .zero 64, 5⟩ hback rfl⟩

/-- A byte behind the last hop is accepted and not marshalled again, and an envelope that was built and not read has
another version after the round trip. -/
theorem trailing_byte_accepted :
    unmarshalRelayEnvelope (sampleEnvelope.marshal ++ [0]) = .ok sampleEnvelope ∧
      sampleEnvelope.marshal ≠ sampleEnvelope.marshal ++ [0] ∧
      unmarshalRelayEnvelope { sampleEnvelope with version := 0 }.marshal ≠ .ok { sampleEnvelope with version := 0 } := by
  refine ⟨unmarshal_marshal_append (by decide) (by decide) [0], ?_, ?_⟩
  · simp
  · have hback := unmarshal_marshal_append (e := { sampleEnvelope with version := 0 }) (by decide) (by decide) []
    rw [List.append_nil] at hback
    rw [hback]
    decide

end Sovereign.Receive
